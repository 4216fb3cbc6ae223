import Nachos.Threads.Condition

/-!
# Synchronized lists

`threads/synchlist.cc` puts a lock and a condition around a `List`.  `Append`
adds an item and signals one waiting thread.  `Remove` waits in a loop until
the list has an item.  Newcomers can take an item before the signalled thread
has the lock again.

`synchList` is the code of one synchronized list, together with any program
that uses it.  The program may use threads, semaphores, and other locks and
conditions, but not the lock and the condition inside the list: that is
`Call.polite`.  The pieces of `Append` and `Remove` between two kernel calls
are the instructions `appendBody` and `removeLoop`.

`Shaped` is the type of the code of a thread: where it is in `Append` or
`Remove`.  The invariant `ListInv` puts these places together with the list,
the lock and the queue of the condition.
-/

namespace Nachos.Threads

open Function Lib

variable {α ι σ η : Type}

/-! ## The code -/

/-- The code of a synchronized list, and of a program that uses it.  An item
is a `void *`, and `none` is `NULL`. -/
inductive SynchListCode (α ι : Type) where
  /-- `Append(item)`. -/
  | append (item : Option α)
  /-- `list->Append(item)`, under the lock. -/
  | appendBody (item : Option α)
  /-- `Remove()`. -/
  | remove
  /-- `while (list->IsEmpty())` and the code after the loop.  `again` says that
  the test follows a `Wait`. -/
  | removeLoop (again : Bool)
  | user (i : ι)

/-- The list, and the history of its items. -/
structure SynchListData (α : Type) where
  list : NachosList (Option α)
  /-- The items in the order in which `Append` has added them. -/
  appended : List (Option α)
  /-- The items in the order in which `Remove` has taken them. -/
  removed : List (Option α)

/-- A program that uses the synchronized list. -/
structure ListUser (α ι σ η : Type) where
  exec : Sched → ι → σ → Option (σ × List (Call (SynchListCode α ι)))
  handler : η → σ → Option (σ × List Nat)

/-- `SynchList::Remove` from the test of its loop on.  `none` is the failed
`ASSERT(item != NULL)`. -/
def removeLoop (lock listEmpty : Nat) (x : SynchListData α) :
    Option (SynchListData α × List (Call (SynchListCode α ι))) :=
  if x.list.isEmpty then
    some (x, [.wait listEmpty lock, .client (.removeLoop true)])
  else
    match x.list.remove with
    | (some (some item), rest) =>
        some ({ x with list := rest, removed := x.removed ++ [some item] }, [.release lock])
    | _ => none

/-- The two ends of the test. -/
theorem removeLoop_cases {lock listEmpty : Nat} {x : SynchListData α}
    {r : SynchListData α × List (Call (SynchListCode α ι))}
    (h : removeLoop lock listEmpty x = some r) :
    x.list = [] ∧ r = (x, [.wait listEmpty lock, .client (.removeLoop true)]) ∨
      ∃ e es, x.list = e :: es ∧
        r = ({ x with list := es, removed := x.removed ++ [e.item] }, [.release lock]) := by
  cases hlist : x.list with
  | nil =>
    have hr : removeLoop lock listEmpty x =
        some (x, [.wait listEmpty lock, .client (.removeLoop (ι := ι) true)]) := by
      simp [removeLoop, hlist, NachosList.isEmpty]
    rw [hr] at h
    exact Or.inl ⟨rfl, (Option.some.inj h).symm⟩
  | cons e es =>
    right
    refine ⟨e, es, rfl, ?_⟩
    cases hitem : e.item with
    | none => simp [removeLoop, hlist, NachosList.isEmpty, hitem] at h
    | some a =>
      have hr : removeLoop (ι := ι) lock listEmpty x = some
          ({ x with list := es, removed := x.removed ++ [some a] }, [.release lock]) := by
        simp [removeLoop, hlist, NachosList.isEmpty, hitem]
      rw [hr] at h
      exact (Option.some.inj h).symm

/-- The `ASSERT` holds when no item of the list is `NULL`. -/
theorem removeLoop_isSome (lock listEmpty : Nat) {x : SynchListData α}
    (h : ∀ item ∈ x.list.items, item.isSome = true) :
    (removeLoop (ι := ι) lock listEmpty x).isSome = true := by
  unfold removeLoop
  cases hlist : x.list with
  | nil => simp [NachosList.isEmpty]
  | cons e es =>
    obtain ⟨a, ha⟩ := Option.isSome_iff_exists.mp (h e.item (by simp [hlist]))
    simp [NachosList.isEmpty, ha]

/-- The synchronized list with lock `lock` and condition `listEmpty`, and its
user. -/
def synchList (lock listEmpty : Nat) (user : ListUser α ι σ η) :
    Program (SynchListCode α ι) (SynchListData α × σ) η where
  exec s i x :=
    match i with
    | .append item => some (x, [.acquire lock, .client (.appendBody item)])
    | .appendBody item =>
        some (({ x.1 with
            list := x.1.list.append item
            appended := x.1.appended ++ [item] }, x.2),
          [.signal listEmpty lock, .release lock])
    | .remove => some (x, [.acquire lock, .client (.removeLoop false)])
    | .removeLoop _ => (removeLoop lock listEmpty x.1).map fun r => ((r.1, x.2), r.2)
    | .user i => (user.exec s i x.2).map fun r => ((x.1, r.1), r.2)
  handler d x := (user.handler d x.2).map fun r => ((x.1, r.1), r.2)

/-! ## The promise of the user -/

/-- What a user may call: `Append` of an item that is not `NULL`, `Remove`,
and its own code. -/
def SynchListCode.isEntry : SynchListCode α ι → Bool
  | .append item => item.isSome
  | .appendBody _ => false
  | .remove => true
  | .removeLoop _ => false
  | .user _ => true

/-- A call that leaves the lock and the condition of the list alone. -/
def Call.polite (lock listEmpty : Nat) : Call (SynchListCode α ι) → Bool
  | .fork _ func => func.isEntry
  | .acquire l => l != lock
  | .release l => l != lock
  | .wait c l => c != listEmpty && l != lock
  | .signal c _ => c != listEmpty
  | .broadcast c _ => c != listEmpty
  | .client i => i.isEntry
  | _ => true

/-- The code of the user makes only such calls. -/
def ListUser.Polite (user : ListUser α ι σ η) (lock listEmpty : Nat) : Prop :=
  ∀ s i x r, user.exec s i x = some r → ∀ c ∈ r.2, c.polite lock listEmpty = true

/-- The main thread makes only such calls. -/
def PoliteStart (lock listEmpty : Nat) : Action (SynchListCode α ι) η → Prop
  | .start cs => ∀ c ∈ cs, c.polite lock listEmpty = true
  | _ => True

instance (lock listEmpty : Nat) (a : Action (SynchListCode α ι) η) :
    Decidable (PoliteStart lock listEmpty a) := by
  unfold PoliteStart
  split <;> infer_instance

/-! ## Where a thread is -/

/-- An instruction that has nothing to do with the list. -/
def Instr.isForeign (lock listEmpty : Nat) : Instr (SynchListCode α ι) → Bool
  | .call c => c.polite lock listEmpty
  | .pLoop s => s != .lock lock
  | .acquired l => l != lock
  | .waitAppend c => c != listEmpty
  | .waitReturn c _ => c != listEmpty
  | _ => true

/-- Code that has nothing to do with the list. -/
def Foreign (lock listEmpty : Nat) (is : List (Instr (SynchListCode α ι))) : Prop :=
  ∀ i ∈ is, i.isForeign lock listEmpty = true

/-- The places of a thread: outside the list, with the lock before the body,
between `list->Append` and `Signal`, before the `Release`, after a test that
found the list empty, and inside `Wait` before the joining. -/
inductive Stage where
  | out
  | locked
  | appended
  | leaving
  | empty
  | joining
  deriving DecidableEq

/-- The thread has the lock. -/
def Stage.holds : Stage → Bool
  | .locked => true
  | .appended => true
  | .leaving => true
  | .empty => true
  | _ => false

/-- The code of a thread that has the lock, before a body. -/
inductive Critical (lock listEmpty : Nat) : List (Instr (SynchListCode α ι)) → Prop where
  | append {item rest} (hitem : item.isSome = true) (h : Foreign lock listEmpty rest) :
      Critical lock listEmpty (.call (.client (.appendBody item)) :: rest)
  | remove {again rest} (h : Foreign lock listEmpty rest) :
      Critical lock listEmpty (.call (.client (.removeLoop again)) :: rest)
  | waited {rest} (h : Foreign lock listEmpty rest) :
      Critical lock listEmpty
        (.waitReturn listEmpty lock :: .call (.client (.removeLoop true)) :: rest)

/-- The code of a thread at a place. -/
inductive Shaped (lock listEmpty : Nat) :
    Stage → List (Instr (SynchListCode α ι)) → Prop where
  | foreign {is} (h : Foreign lock listEmpty is) : Shaped lock listEmpty .out is
  | handler {st is} (n : Nat) (h : Shaped lock listEmpty st is) :
      Shaped lock listEmpty st (.call (.v n) :: is)
  | acquire {is} (h : Critical lock listEmpty is) :
      Shaped lock listEmpty .out (.call (.acquire lock) :: is)
  | loop {is} (h : Critical lock listEmpty is) :
      Shaped lock listEmpty .out (.pLoop (.lock lock) :: .acquired lock :: is)
  | acquired {is} (h : Critical lock listEmpty is) :
      Shaped lock listEmpty .out (.acquired lock :: is)
  | critical {is} (h : Critical lock listEmpty is) : Shaped lock listEmpty .locked is
  | signal {is} (h : Foreign lock listEmpty is) :
      Shaped lock listEmpty .appended
        (.call (.signal listEmpty lock) :: .call (.release lock) :: is)
  | release {is} (h : Foreign lock listEmpty is) :
      Shaped lock listEmpty .leaving (.call (.release lock) :: is)
  | wait {is} (h : Foreign lock listEmpty is) :
      Shaped lock listEmpty .empty
        (.call (.wait listEmpty lock) :: .call (.client (.removeLoop true)) :: is)
  | joining {is} (h : Foreign lock listEmpty is) :
      Shaped lock listEmpty .joining
        (.waitAppend listEmpty :: .call (.acquire lock) :: .waitReturn listEmpty lock ::
          .call (.client (.removeLoop true)) :: is)

/-- The instructions of a `Wait` on the condition up to the joining. -/
def Instr.entersWait (listEmpty : Nat) : Instr (SynchListCode α ι) → Bool
  | .call (.wait c _) => c == listEmpty
  | .waitAppend c => c == listEmpty
  | _ => false

section Shapes

variable {lock listEmpty : Nat} {i : Instr (SynchListCode α ι)}
  {is rest : List (Instr (SynchListCode α ι))} {st : Stage}

theorem Foreign.head (h : Foreign lock listEmpty (i :: is)) :
    i.isForeign lock listEmpty = true :=
  h i List.mem_cons_self

theorem Foreign.tail (h : Foreign lock listEmpty (i :: is)) : Foreign lock listEmpty is :=
  fun j hj => h j (List.mem_cons_of_mem i hj)

theorem Foreign.append (h : Foreign lock listEmpty is) (h' : Foreign lock listEmpty rest) :
    Foreign lock listEmpty (is ++ rest) := by
  intro j hj
  rcases List.mem_append.mp hj with hj | hj
  · exact h j hj
  · exact h' j hj

/-- Polite calls have nothing to do with the list. -/
theorem foreign_map_call {cs : List (Call (SynchListCode α ι))}
    (h : ∀ c ∈ cs, c.polite lock listEmpty = true) :
    Foreign lock listEmpty (synchCode (cs.map Instr.call)) := by
  intro j hj
  obtain ⟨c, hc, rfl⟩ := List.mem_map.mp (List.mem_of_mem_filter hj)
  exact h c hc

theorem shaped_map_v (ns : List Nat) (h : Shaped lock listEmpty st is) :
    Shaped lock listEmpty st (ns.map (fun n => .call (.v n)) ++ is) := by
  induction ns with
  | nil => exact h
  | cons n ns ih => exact .handler n ih

/-- The code after a test of a semaphore. -/
theorem shaped_tests {s : SemId} {cont : List (Instr (SynchListCode α ι))}
    (hi : i.tests = some (s, cont)) (h : Shaped lock listEmpty st (i :: rest)) :
    st = .out ∧ Shaped lock listEmpty .out (.pLoop s :: cont ++ rest) ∧
      Shaped lock listEmpty .out (cont ++ rest) := by
  cases h with
  | foreign hf =>
    have hloop : Foreign lock listEmpty (.pLoop s :: cont) := by
      have hhead := hf.head
      rcases Instr.tests_cases hi with ⟨n, rfl, rfl, rfl⟩ | ⟨l, rfl, rfl, rfl⟩ | ⟨rfl, rfl⟩
      · exact List.forall_mem_singleton.mpr rfl
      · simpa [Foreign, Instr.isForeign, Call.polite] using hhead
      · exact List.forall_mem_singleton.mpr hhead
    exact ⟨rfl, .foreign (hloop.append hf.tail), .foreign (hloop.tail.append hf.tail)⟩
  | handler n h | acquired hc | signal hf | release hf | wait hf | joining hf => cases hi
  | acquire hc | loop hc =>
    cases hi
    exact ⟨rfl, .loop hc, .acquired hc⟩
  | critical hc => cases hc <;> cases hi

/-- Only a thread inside `Wait` is before the joining. -/
theorem Shaped.joining_mem (h : Shaped lock listEmpty .joining is) :
    .waitAppend listEmpty ∈ is := by
  generalize hst : Stage.joining = st at h
  induction h with
  | handler n h ih => exact List.mem_cons_of_mem _ (ih hst)
  | joining hf => exact List.mem_cons_self
  | _ => cases hst

theorem Shaped.appended_mem (h : Shaped lock listEmpty .appended is) :
    .call (.signal listEmpty lock) ∈ is := by
  generalize hst : Stage.appended = st at h
  induction h with
  | handler n h ih => exact List.mem_cons_of_mem _ (ih hst)
  | signal hf => exact List.mem_cons_self
  | _ => cases hst

theorem isSynch_of_entersWait (h : i.entersWait listEmpty = true) : i.isSynch = true := by
  unfold Instr.entersWait at h
  split at h
  · rfl
  · rfl
  · cases h

theorem Foreign.entersWait (h : Foreign lock listEmpty is) :
    is.any (Instr.entersWait listEmpty) = false := by
  rw [List.any_eq_false]
  intro i hi hw
  have hi := h i hi
  unfold Instr.entersWait at hw
  split at hw
  · simp_all [Instr.isForeign, Call.polite]
  · simp_all [Instr.isForeign]
  · cases hw

theorem Critical.entersWait (h : Critical lock listEmpty is) :
    is.any (Instr.entersWait listEmpty) = false := by
  cases h with
  | append hitem hf | remove hf | waited hf => simpa [Instr.entersWait] using hf.entersWait

/-- A thread on its way into `Wait` has found the list empty. -/
theorem Shaped.entersWait (h : Shaped lock listEmpty st is)
    (hw : is.any (Instr.entersWait listEmpty) = true) : st = .empty ∨ st = .joining := by
  induction h with
  | foreign hf =>
    rw [hf.entersWait] at hw
    cases hw
  | handler n h ih => exact ih (by simpa [Instr.entersWait] using hw)
  | acquire hc | loop hc | acquired hc => simp [Instr.entersWait, hc.entersWait] at hw
  | critical hc =>
    rw [hc.entersWait] at hw
    cases hw
  | signal hf | release hf => simp [Instr.entersWait, hf.entersWait] at hw
  | wait hf => exact Or.inl rfl
  | joining hf => exact Or.inr rfl

end Shapes

/-! ## The invariant -/

/-- The next test of the loop in `Remove` follows a `Wait`. -/
def Instr.isRetest : Instr (SynchListCode α ι) → Bool
  | .call (.client (.removeLoop again)) => again
  | _ => false

/-- The thread has still to test again after a `Wait`. -/
def retests (is : List (Instr (SynchListCode α ι))) : Bool := is.any Instr.isRetest

theorem retests_cons (i : Instr (SynchListCode α ι)) (is : List (Instr (SynchListCode α ι))) :
    retests (i :: is) = (i.isRetest || retests is) :=
  List.any_cons

/-- An instruction that is no test leaves what has still to be tested. -/
theorem retests_of_cons {is rest : List (Instr (SynchListCode α ι))}
    {i : Instr (SynchListCode α ι)} (his : is = i :: rest) (hi : i.isRetest = false)
    (hre : retests is = true) : retests rest = true := by
  rwa [his, retests_cons, hi, Bool.false_or] at hre

theorem retests_append (is js : List (Instr (SynchListCode α ι))) :
    retests (is ++ js) = (retests is || retests js) :=
  List.any_append

/-- Code that has nothing to do with the list has nothing to test again. -/
theorem Foreign.retests_eq {lock listEmpty : Nat} {is : List (Instr (SynchListCode α ι))}
    (h : Foreign lock listEmpty is) : retests is = false := by
  rw [retests, List.any_eq_false]
  intro i hi hre
  have hf := h i hi
  cases i with
  | call c => cases c with
    | client x => cases x <;> simp_all [Instr.isForeign, Instr.isRetest, Call.polite,
        SynchListCode.isEntry]
    | _ => simp [Instr.isRetest] at hre
  | _ => simp [Instr.isRetest] at hre

theorem isRetest_of_tests {i : Instr (SynchListCode α ι)}
    {r : SemId × List (Instr (SynchListCode α ι))} (hi : i.tests = some r) :
    i.isRetest = false := by
  rcases Instr.tests_cases hi with ⟨n, rfl, _⟩ | ⟨l, rfl, _⟩ | ⟨rfl, _⟩
  · rfl
  · rfl
  · rfl

namespace Synch

/-- The threads that a `Signal` has woken and that have not tested again. -/
def signalled (listEmpty : Nat) (place : ThreadPtr → Stage)
    (m : Synch (SynchListCode α ι) (SynchListData α × σ)) : Finset ThreadPtr :=
  (Finset.range m.created).filter fun t =>
    retests (m.todo t) = true ∧ place t ≠ .empty ∧ place t ≠ .joining ∧
      t ∉ m.queue (.cond listEmpty)

/-- The invariant of a synchronized list.  `place t` is where thread `t`
is. -/
structure ListInv (lock listEmpty : Nat) (place : ThreadPtr → Stage)
    (m : Synch (SynchListCode α ι) (SynchListData α × σ)) : Prop where
  shaped : ∀ t, Shaped lock listEmpty (place t) (m.todo t)
  holds : ∀ t, Holds m.log t lock ↔ (place t).holds = true
  mutex : LockInv lock m
  fifo : m.shared.1.appended = m.shared.1.removed ++ m.shared.1.list.items
  nonnull : ∀ x ∈ m.shared.1.list.items, x.isSome = true
  noLost : (∀ t, place t ≠ .appended) →
    NoLostWakeup m.shared.1.list.length (m.queue (.cond listEmpty))
      (m.signalled listEmpty place)
  pending : ∀ t, place t = .appended →
    NoLostWakeup (m.shared.1.list.length - 1) (m.queue (.cond listEmpty))
      (m.signalled listEmpty place)
  empty : ∀ t, place t = .empty ∨ place t = .joining → m.shared.1.list = []
  parked : ∀ t ∈ m.queue (.cond listEmpty), retests (m.todo t) = true ∧ place t = .out

section Steps

variable {lock listEmpty : Nat} {place : ThreadPtr → Stage} {t : ThreadPtr}
  {m m' : Synch (SynchListCode α ι) (SynchListData α × σ)}
  {is : List (Instr (SynchListCode α ι))} {rest : List (Instr (SynchListCode α ι))}
  {o : Label (SynchListCode α ι)} {st : Stage}

/-- Threads stay signalled when only thread `t` moves, and it still has to
test again. -/
theorem signalled_subset (hc : m.created ≤ m'.created) (htodo : m'.todo = update m.todo t is)
    (hq : ∀ u, u ∉ m.queue (.cond listEmpty) → u ∉ m'.queue (.cond listEmpty))
    (hretest : retests (m.todo t) = true → retests is = true)
    (hst : st = place t ∨ st ≠ .empty ∧ st ≠ .joining) :
    m.signalled listEmpty place ⊆ m'.signalled listEmpty (update place t st) := by
  intro u hu
  simp only [signalled, Finset.mem_filter, Finset.mem_range] at hu ⊢
  obtain ⟨hlt, hre, hne, hnj, hnq⟩ := hu
  refine ⟨lt_of_lt_of_le hlt hc, ?_, ?_, ?_, hq u hnq⟩
  all_goals by_cases hut : u = t
  · subst hut
    simpa [htodo] using hretest hre
  · simpa [htodo, update_of_ne hut] using hre
  · subst hut
    rcases hst with rfl | hst
    · simpa using hne
    · simpa using hst.1
  · simpa [update_of_ne hut] using hne
  · subst hut
    rcases hst with rfl | hst
    · simpa using hnj
    · simpa using hst.2
  · simpa [update_of_ne hut] using hnj

theorem ListInv.shaped_update (h : ListInv lock listEmpty place m)
    (htodo : m'.todo = update m.todo t is) (hshaped : Shaped lock listEmpty st is) (u : ThreadPtr) :
    Shaped lock listEmpty (update place t st u) (m'.todo u) := by
  rw [htodo]
  by_cases hut : u = t
  · subst hut
    simpa using hshaped
  · simpa [update_of_ne hut] using h.shaped u

/-- A step of thread `t` that leaves the list and its queue alone. -/
theorem ListInv.keep (h : ListInv lock listEmpty place m)
    (hc : m.created ≤ m'.created) (htodo : m'.todo = update m.todo t is)
    (hq : m'.queue (.cond listEmpty) = m.queue (.cond listEmpty))
    (hdata : m'.shared.1 = m.shared.1) (hmutex : LockInv lock m')
    (hholds : ∀ u, Holds m'.log u lock ↔ (update place t st u).holds = true)
    (hshaped : Shaped lock listEmpty st is)
    (hretest : retests (m.todo t) = true → retests is = true)
    (hst : st = place t ∨ t ∉ m.queue (.cond listEmpty) ∧ place t ≠ .appended ∧
      st ≠ .appended ∧ st ≠ .empty ∧ st ≠ .joining) :
    ListInv lock listEmpty (update place t st) m' := by
  have hsub : m.signalled listEmpty place ⊆ m'.signalled listEmpty (update place t st) :=
    signalled_subset hc htodo (fun u hu => hq ▸ hu) hretest
      (hst.imp id fun hst => ⟨hst.2.2.2.1, hst.2.2.2.2⟩)
  have happ : ∀ u, update place t st u = .appended ↔ place u = .appended := by
    intro u
    by_cases hut : u = t
    · subst hut
      rw [update_self]
      rcases hst with rfl | hst
      · exact Iff.rfl
      · exact ⟨fun hs => absurd hs hst.2.2.1, fun hs => absurd hs hst.2.1⟩
    · rw [update_of_ne hut]
  refine ⟨h.shaped_update htodo hshaped, hholds, hmutex, ?_, ?_, ?_, ?_, ?_, ?_⟩
  · rw [hdata]
    exact h.fifo
  · rw [hdata]
    exact h.nonnull
  · intro hno
    rw [hdata, hq]
    exact (h.noLost fun u hu => hno u ((happ u).mpr hu)).mono le_rfl id hsub
  · intro u hu
    rw [hdata, hq]
    exact (h.pending u ((happ u).mp hu)).mono le_rfl id hsub
  · intro u hu
    rw [hdata]
    by_cases hut : u = t
    · subst hut
      rw [update_self] at hu
      rcases hst with rfl | hst
      · exact h.empty u hu
      · exact absurd hu (by simp [hst])
    · rw [update_of_ne hut] at hu
      exact h.empty u hu
  · intro u hu
    rw [hq] at hu
    obtain ⟨hre, hout⟩ := h.parked u hu
    by_cases hut : u = t
    · subst hut
      rcases hst with rfl | hst
      · simpa [htodo, hout] using hretest hre
      · exact absurd hu hst.1
    · simpa [htodo, update_of_ne hut] using ⟨hre, hout⟩

/-- While a thread has the lock, the other threads are not at the places that
say something about the list. -/
theorem ListInv.alone (h : ListInv lock listEmpty place m) (ht : (place t).holds = true)
    (hatomic : ∀ u, .waitAppend listEmpty ∈ m.todo u → u = t) (u : ThreadPtr)
    (hut : u ≠ t) : place u ≠ .appended ∧ place u ≠ .empty ∧ place u ≠ .joining := by
  have hfree : (place u).holds ≠ true := fun hu =>
    hut (h.mutex.unique ((h.holds u).mpr hu) ((h.holds t).mpr ht))
  refine ⟨?_, ?_, ?_⟩
  · intro hu
    exact hfree (by rw [hu]; rfl)
  · intro hu
    exact hfree (by rw [hu]; rfl)
  · intro hu
    have hsh := h.shaped u
    rw [hu] at hsh
    exact hut (hatomic u hsh.joining_mem)

/-- A move of one thread that changes the holder of the lock for none. -/
theorem ListInv.holds_update (h : ListInv lock listEmpty place m)
    (hlog : ∀ u, Holds m'.log u lock ↔ Holds m.log u lock)
    (hst : st.holds = (place t).holds) (u : ThreadPtr) :
    Holds m'.log u lock ↔ (update place t st u).holds = true := by
  rw [hlog, h.holds]
  by_cases hut : u = t
  · rw [hut, update_self, hst]
  · rw [update_of_ne hut]

/-- A step of the thread that has the lock.  The conditions on the other
threads hold because they are elsewhere. -/
theorem ListInv.move (h : ListInv lock listEmpty place m)
    (htodo : m'.todo = update m.todo t is)
    (hother : ∀ u, u ≠ t → place u ≠ .appended ∧ place u ≠ .empty ∧ place u ≠ .joining)
    (hmutex : LockInv lock m')
    (hholds : ∀ u, Holds m'.log u lock ↔ (update place t st u).holds = true)
    (hshaped : Shaped lock listEmpty st is)
    (hfifo : m'.shared.1.appended = m'.shared.1.removed ++ m'.shared.1.list.items)
    (hnonnull : ∀ x ∈ m'.shared.1.list.items, x.isSome = true)
    (hnoLost : st ≠ .appended →
      NoLostWakeup m'.shared.1.list.length (m'.queue (.cond listEmpty))
        (m'.signalled listEmpty (update place t st)))
    (hpending : st = .appended →
      NoLostWakeup (m'.shared.1.list.length - 1) (m'.queue (.cond listEmpty))
        (m'.signalled listEmpty (update place t st)))
    (hempty : st = .empty ∨ st = .joining → m'.shared.1.list = [])
    (hparked : ∀ u ∈ m'.queue (.cond listEmpty),
      u ≠ t ∧ u ∈ m.queue (.cond listEmpty) ∨ u = t ∧ retests is = true ∧ st = .out) :
    ListInv lock listEmpty (update place t st) m' := by
  refine ⟨h.shaped_update htodo hshaped, hholds, hmutex, hfifo, hnonnull, ?_, ?_, ?_, ?_⟩
  · intro hno
    exact hnoLost (by simpa using hno t)
  · intro u hu
    by_cases hut : u = t
    · exact hpending (by simpa [hut] using hu)
    · rw [update_of_ne hut] at hu
      exact absurd hu (hother u hut).1
  · intro u hu
    by_cases hut : u = t
    · exact hempty (by simpa [hut] using hu)
    · rw [update_of_ne hut] at hu
      rcases hu with hu | hu
      · exact absurd hu (hother u hut).2.1
      · exact absurd hu (hother u hut).2.2
  · intro u hu
    rcases hparked u hu with ⟨hut, hmem⟩ | ⟨rfl, hre, hout⟩
    · simpa [htodo, update_of_ne hut] using h.parked u hmem
    · simpa [htodo] using ⟨hre, hout⟩

/-- A thread that waits in the queue is outside. -/
theorem ListInv.ne_of_queued (h : ListInv lock listEmpty place m) (ht : place t ≠ .out)
    {u : ThreadPtr} (hu : u ∈ m.queue (.cond listEmpty)) : u ≠ t := by
  rintro rfl
  exact ht (h.parked u hu).2

/-- `list->Append(item)` under the lock. -/
theorem ListInv.appendBody {item : Option α}
    (h : ListInv lock listEmpty place m)
    (hatomic : ∀ u, .waitAppend listEmpty ∈ m.todo u → u = t)
    (htodo : m.todo t = .call (.client (.appendBody item)) :: rest)
    (hplace : place t = .locked) (hitem : item.isSome = true)
    (hrest : Foreign lock listEmpty rest)
    (hm : m' = { m with shared := ({ m.shared.1 with
        list := m.shared.1.list.append item
        appended := m.shared.1.appended ++ [item] }, m.shared.2) }.setTodo t
        (.call (.signal listEmpty lock) :: .call (.release lock) :: rest))
    (hmutex : LockInv lock m') :
    ListInv lock listEmpty (update place t .appended) m' := by
  have hother := h.alone (by rw [hplace]; rfl) hatomic
  have hlen : (m'.shared.1.list.length : Int) - 1 = m.shared.1.list.length := by
    simp [hm, setTodo, NachosList.append]
  refine h.move (by rw [hm]; rfl) hother hmutex
    (h.holds_update (fun u => by rw [hm]; rfl) (by rw [hplace]; rfl)) (.signal hrest)
    ?_ ?_ ?_ ?_ ?_ ?_
  · simp [hm, setTodo, h.fifo]
  · intro x hx
    simp only [hm, setTodo, NachosList.items_append, List.mem_append, List.mem_singleton] at hx
    rcases hx with hx | rfl
    · exact h.nonnull x hx
    · exact hitem
  · intro hne
    exact absurd rfl hne
  · intro _
    rw [hlen]
    have hno : ∀ u, place u ≠ .appended := by
      intro u
      by_cases hut : u = t
      · simp [hut, hplace]
      · exact (hother u hut).1
    refine (h.noLost hno).mono le_rfl ?_
      (signalled_subset ?_ (by rw [hm]; rfl) ?_ ?_ (Or.inr ⟨by simp, by simp⟩))
    · simp [hm, setTodo]
    · simp [hm, setTodo]
    · simp [hm, setTodo]
    · simp [htodo, retests_cons, Instr.isRetest]
  · simp
  · intro u hu
    have hu' : u ∈ m.queue (.cond listEmpty) := by
      simpa [hm, setTodo] using hu
    exact Or.inl ⟨h.ne_of_queued (by simp [hplace]) hu', hu'⟩

/-- The loop of `Remove` ends and `Remove` takes the first item. -/
theorem ListInv.removeItem
    {e : ListElement (Option α)} {es : NachosList (Option α)}
    (h : ListInv lock listEmpty place m)
    (hatomic : ∀ u, .waitAppend listEmpty ∈ m.todo u → u = t)
    (hplace : place t = .locked) (hrest : Foreign lock listEmpty rest)
    (hlist : m.shared.1.list = e :: es)
    (hm : m' = { m with shared := ({ m.shared.1 with
        list := es
        removed := m.shared.1.removed ++ [e.item] }, m.shared.2) }.setTodo t
        (.call (.release lock) :: rest))
    (hmutex : LockInv lock m') :
    ListInv lock listEmpty (update place t .leaving) m' := by
  have hother := h.alone (by rw [hplace]; rfl) hatomic
  have hfifo := h.fifo
  have hnonnull := h.nonnull
  rw [hlist] at hfifo hnonnull
  refine h.move (by rw [hm]; rfl) hother hmutex
    (h.holds_update (fun u => by rw [hm]; rfl) (by rw [hplace]; rfl)) (.release hrest)
    ?_ ?_ ?_ ?_ ?_ ?_
  · simp [hm, setTodo, hfifo]
  · intro x hx
    refine hnonnull x ?_
    simp only [hm, setTodo] at hx
    simp [hx]
  · intro _
    have hno : ∀ u, place u ≠ .appended := by
      intro u
      by_cases hut : u = t
      · simp [hut, hplace]
      · exact (hother u hut).1
    have hlen : (m'.shared.1.list.length : Int) = m.shared.1.list.length - 1 := by
      simp [hm, setTodo, hlist]
    have hqueue : m'.queue (.cond listEmpty) = m.queue (.cond listEmpty) := by
      simp [hm, setTodo]
    rw [hlen, hqueue]
    refine (h.noLost hno).take (t := t) ?_
    intro u hu
    obtain ⟨hut, hu⟩ := Finset.mem_erase.mp hu
    simpa [signalled, hm, setTodo, update_of_ne hut] using hu
  · simp
  · simp
  · intro u hu
    have hu' : u ∈ m.queue (.cond listEmpty) := by
      simpa [hm, setTodo] using hu
    exact Or.inl ⟨h.ne_of_queued (by simp [hplace]) hu', hu'⟩

/-- A move around `Wait`, while the list is empty. -/
theorem ListInv.moveEmpty (h : ListInv lock listEmpty place m)
    (htodo : m'.todo = update m.todo t is) (hdata : m'.shared.1 = m.shared.1)
    (hlist : m.shared.1.list = []) (hmutex : LockInv lock m')
    (hholds : ∀ u, Holds m'.log u lock ↔ (update place t st u).holds = true)
    (hshaped : Shaped lock listEmpty st is)
    (hparked : ∀ u ∈ m'.queue (.cond listEmpty),
      u ≠ t ∧ u ∈ m.queue (.cond listEmpty) ∨ u = t ∧ retests is = true ∧ st = .out) :
    ListInv lock listEmpty (update place t st) m' := by
  have hempty : m'.shared.1.list = [] := by
    rw [hdata]
    exact hlist
  refine ⟨h.shaped_update htodo hshaped, hholds, hmutex, ?_, ?_, ?_, ?_, fun _ _ => hempty, ?_⟩
  · rw [hdata]
    exact h.fifo
  · rw [hdata]
    exact h.nonnull
  · intro _
    rw [hempty]
    exact .of_nonpos (by simp)
  · intro _ _
    rw [hempty]
    exact .of_nonpos (by simp)
  · intro u hu
    rcases hparked u hu with ⟨hut, hmem⟩ | ⟨rfl, hre, hout⟩
    · simpa [htodo, update_of_ne hut] using h.parked u hmem
    · simpa [htodo] using ⟨hre, hout⟩

/-- The `Signal` in `Append`.  The thread holds the lock, so the head of the
queue is woken. -/
theorem ListInv.signal (h : ListInv lock listEmpty place m) (hd : m.Dispatched t o)
    (hatomic : ∀ u, .waitAppend listEmpty ∈ m.todo u → u = t)
    (htodo : m.todo t = .call (.signal listEmpty lock) :: .call (.release lock) :: rest)
    (hplace : place t = .appended) (hrest : Foreign lock listEmpty rest)
    (hm : m' = (m.wake listEmpty 1).setTodo t (.call (.release lock) :: rest))
    (hmutex : LockInv lock m') :
    ListInv lock listEmpty (update place t .leaving) m' := by
  have hother := h.alone (by rw [hplace]; rfl) hatomic
  have hdata : m'.shared.1 = m.shared.1 := by
    rw [hm]
    rfl
  have hqueue : m'.queue (.cond listEmpty) = (m.queue (.cond listEmpty)).tail := by
    simp [hm, setTodo, wake, record]
  have hlog : ∀ u, Holds m'.log u lock ↔ Holds m.log u lock := by
    intro u
    have hsame : lockPhase m'.log u lock = lockPhase m.log u lock := by
      rw [hm]
      exact lockPhase_wake m t u listEmpty 1 lock _
    rw [Holds, Holds, hsame]
  refine h.move (by rw [hm]; rfl) hother hmutex (h.holds_update hlog (by rw [hplace]; rfl))
    (.release hrest) ?_ ?_ ?_ ?_ ?_ ?_
  · rw [hdata]
    exact h.fifo
  · rw [hdata]
    exact h.nonnull
  · intro _
    rw [hdata, hqueue]
    have hpending := h.pending t hplace
    cases hq : m.queue (.cond listEmpty) with
    | nil => simp [NoLostWakeup]
    | cons w ws =>
      rw [hq] at hpending
      have hw : w ∈ m.queue (.cond listEmpty) := by simp [hq]
      have hwt : w ≠ t := h.ne_of_queued (by simp [hplace]) hw
      obtain ⟨hre, hout⟩ := h.parked w hw
      have hnd := hd.nodup (.cond listEmpty)
      rw [hq] at hnd
      have hunits : (m.shared.1.list.length : Int) = m.shared.1.list.length - 1 + 1 := by omega
      rw [hunits]
      refine hpending.give (t := w) ?_ ?_
      · simp [signalled, hq]
      · rw [Finset.insert_subset_iff]
        constructor
        · have hlt := hd.queued_lt _ w hw
          have hnot := (List.nodup_cons.mp hnd).1
          simp [signalled, hm, setTodo, wake, record, hq, hlt, hnot, hre, hout, update_of_ne hwt]
        · refine signalled_subset (by rw [hm]; exact le_rfl) (by rw [hm]; rfl) ?_ ?_
            (Or.inr ⟨by simp, by simp⟩)
          · intro u hu hmem
            rw [hqueue] at hmem
            exact hu (List.mem_of_mem_tail hmem)
          · exact retests_of_cons htodo rfl
  · simp
  · simp
  · intro u hu
    rw [hqueue] at hu
    have hu' := List.mem_of_mem_tail hu
    exact Or.inl ⟨h.ne_of_queued (by simp [hplace]) hu', hu'⟩

/-- The phase of thread `t` changes with its place. -/
theorem ListInv.holds_move {e : List Event} {p : LockPhase} (h : ListInv lock listEmpty place m)
    (hlog : m'.log = m.log ++ e) (ht : e.foldl (LockPhase.next t lock) (lockPhase m.log t lock) = p)
    (hu : ∀ u, u ≠ t → ∀ x ∈ e, ∀ ph, LockPhase.next u lock ph x = ph)
    (hst : p = .held ↔ st.holds = true) (u : ThreadPtr) :
    Holds m'.log u lock ↔ (update place t st u).holds = true := by
  rw [Holds, hlog, lockPhase_update ht hu]
  by_cases hut : u = t
  · rw [hut, update_self, update_self]
    exact hst
  · rw [update_of_ne hut, update_of_ne hut]
    exact h.holds u

/-- The thread gives the lock back. -/
theorem ListInv.holds_release {e : List Event} (h : ListInv lock listEmpty place m)
    (hlog : m'.log = m.log ++ (e ++ [.release t lock, .v (.lock lock)]))
    (he : ∀ u, ∀ x ∈ e, ∀ ph, LockPhase.next u lock ph x = ph) (hst : st.holds = false)
    (u : ThreadPtr) :
    Holds m'.log u lock ↔ (update place t st u).holds = true := by
  refine h.holds_move (p := .out) hlog ?_ ?_ (by simp [hst]) u
  · simp [LockPhase.next]
  · intro w hw x hx ph
    rcases List.mem_append.mp hx with hx | hx
    · exact he w x hx ph
    · simp only [List.mem_cons, List.not_mem_nil, or_false] at hx
      rcases hx with rfl | rfl
      · simp [LockPhase.next, Ne.symm hw]
      · rfl

/-- Events that do not concern the lock. -/
theorem holds_append {log e : List Event}
    (he : ∀ u, ∀ x ∈ e, ∀ ph, LockPhase.next u lock ph x = ph) (u : ThreadPtr) :
    Holds (log ++ e) u lock ↔ Holds log u lock := by
  rw [Holds, Holds, lockPhase_append, foldl_next_eq (he u)]

/-- The code of the list releases its lock only when it holds it. -/
theorem ListInv.disciplined {prog : Program _ _ η}
    (h : ListInv lock listEmpty place m) (hstep : Step prog t o m m') :
    Disciplined lock m t o := by
  have hsh := h.shaped t
  have hholds := (h.holds t).mpr
  generalize place t = st at hsh hholds
  constructor
  · rintro rfl
    obtain ⟨rest, htodo⟩ := todo_of_exec hstep rfl
    rw [htodo] at hsh
    cases hsh with
    | foreign hf => simpa [Instr.isForeign, Call.polite] using hf.head
    | critical hc => cases hc
    | release hf => exact hholds rfl
  · rintro c rfl
    obtain ⟨rest, htodo⟩ := todo_of_exec hstep rfl
    rw [htodo] at hsh
    cases hsh with
    | foreign hf => simpa [Instr.isForeign, Call.polite] using hf.head
    | critical hc => cases hc
    | wait hf => exact hholds rfl

/-- A step of thread `t` that moves no thread to another place. -/
theorem ListInv.stay {e : List Event} (h : ListInv lock listEmpty place m) (hplace : place t = st)
    (hmutex : LockInv lock m') (hc : m.created ≤ m'.created) (htodo : m'.todo = update m.todo t is)
    (hq : m'.queue (.cond listEmpty) = m.queue (.cond listEmpty)) (hdata : m'.shared.1 = m.shared.1)
    (hlog : m'.log = m.log ++ e) (he : ∀ u, ∀ x ∈ e, ∀ ph, LockPhase.next u lock ph x = ph)
    (hshaped : Shaped lock listEmpty st is)
    (hretest : retests (m.todo t) = true → retests is = true) :
    ∃ place, ListInv lock listEmpty place m' := by
  refine ⟨update place t st, h.keep hc htodo hq hdata hmutex ?_ hshaped hretest
    (Or.inl hplace.symm)⟩
  refine h.holds_update (fun u => ?_) (by rw [hplace])
  rw [hlog]
  exact holds_append he u

/-- A thread executes code of the list or of its user. -/
theorem ListInv.client {user : ListUser α ι σ η} {i : SynchListCode α ι} {s : Sched}
    {r : (SynchListData α × σ) × List (Call (SynchListCode α ι))}
    (h : ListInv lock listEmpty place m) (huser : user.Polite lock listEmpty)
    (hatomic : ∀ u, .waitAppend listEmpty ∈ m.todo u → u = t)
    (htodo : m.todo t = .call (.client i) :: rest)
    (hexec : (synchList lock listEmpty user).exec s i m.shared = some r)
    (hmutex : LockInv lock
      ({ m with shared := r.1 }.setTodo t (synchCode (r.2.map Instr.call) ++ rest))) :
    ∃ place, ListInv lock listEmpty place
      ({ m with shared := r.1 }.setTodo t (synchCode (r.2.map Instr.call) ++ rest)) := by
  have hnil : m.log = m.log ++ [] := (List.append_nil _).symm
  have hsh := h.shaped t
  generalize hplace : place t = st at hsh
  rw [htodo] at hsh
  cases i with
  | append item =>
    cases hexec
    cases hsh with
    | foreign hf =>
      refine h.stay hplace hmutex le_rfl rfl rfl rfl hnil (by simp)
        (.acquire (.append ?_ hf.tail)) ?_
      · simpa [Instr.isForeign, Call.polite, SynchListCode.isEntry] using hf.head
      · simp [htodo, hf.retests_eq]
    | critical hc => cases hc
  | appendBody item =>
    cases hexec
    cases hsh with
    | foreign hf => simpa [Instr.isForeign, Call.polite, SynchListCode.isEntry] using hf.head
    | critical hc =>
      cases hc with
      | append hitem hf =>
        exact ⟨_, h.appendBody hatomic htodo hplace hitem hf rfl hmutex⟩
  | remove =>
    cases hexec
    cases hsh with
    | foreign hf =>
      exact h.stay hplace hmutex le_rfl rfl rfl rfl hnil (by simp)
        (.acquire (.remove hf.tail)) (by simp [htodo, hf.retests_eq])
    | critical hc => cases hc
  | removeLoop again =>
    cases hsh with
    | foreign hf => simpa [Instr.isForeign, Call.polite, SynchListCode.isEntry] using hf.head
    | critical hc =>
      cases hc with
      | remove hf =>
        obtain ⟨r', hr', rfl⟩ := Option.map_eq_some_iff.mp hexec
        rcases removeLoop_cases hr' with ⟨hlist, rfl⟩ | ⟨e, es, hlist, rfl⟩
        · refine ⟨_, h.moveEmpty rfl rfl hlist hmutex
            (h.holds_update (fun _ => Iff.rfl) (by rw [hplace]; rfl)) (.wait hf) ?_⟩
          intro u hu
          exact Or.inl ⟨h.ne_of_queued (by simp [hplace]) hu, hu⟩
        · exact ⟨_, h.removeItem hatomic hplace hf hlist rfl hmutex⟩
  | user j =>
    obtain ⟨r', hr', rfl⟩ := Option.map_eq_some_iff.mp hexec
    cases hsh with
    | foreign hf =>
      have hcalls := foreign_map_call (huser s j m.shared.2 r' hr')
      exact h.stay hplace hmutex le_rfl rfl rfl rfl hnil (by simp)
        (.foreign (hcalls.append hf.tail)) (by simp [htodo, hf.retests_eq])
    | critical hc => cases hc

/-- A thread of the user forks another one. -/
theorem ListInv.fork {u : ThreadPtr} {func : SynchListCode α ι}
    (h : ListInv lock listEmpty place m)
    (htodo : m.todo t = .call (.fork u func) :: rest) (hut : u ≠ t) (hfresh : m.todo u = [])
    (hmutex : LockInv lock ((m.setTodo t rest).setTodo u [.call (.client func), .call .finish])) :
    ∃ place, ListInv lock listEmpty place
      ((m.setTodo t rest).setTodo u [.call (.client func), .call .finish]) := by
  have hnil : m.log = m.log ++ [] := (List.append_nil _).symm
  have hsh := h.shaped t
  generalize hplace : place t = st at hsh
  have hcov := h.mutex.covered t
  rw [htodo] at hsh hcov
  cases hsh with
  | foreign hf =>
    have hcaller : LockInv lock (m.setTodo t rest) :=
      h.mutex.keep rfl rfl rfl rfl hnil (by simp) rfl (Own.covered hcov _)
    obtain ⟨place1, h1⟩ := h.stay hplace hcaller le_rfl rfl rfl rfl hnil (by simp)
      (.foreign hf.tail) (by simp [htodo, retests_cons, Instr.isRetest])
    have hu : (m.setTodo t rest).todo u = [] := by
      simpa [setTodo, update_of_ne hut] using hfresh
    have hshu := h1.shaped u
    generalize hplace1 : place1 u = st at hshu
    rw [hu] at hshu
    cases hshu with
    | foreign _ =>
      refine h1.stay hplace1 hmutex le_rfl rfl rfl rfl hnil (by simp) (.foreign ?_) ?_
      · have hentry := hf.head
        simpa [Foreign, Instr.isForeign, Call.polite] using hentry
      · simp [hu, retests]
    | critical hc => cases hc
  | critical hc => cases hc

/-- A thread passes the test of a semaphore or a lock. -/
theorem ListInv.pass {i : Instr (SynchListCode α ι)} {s : SemId}
    {rest cont : List (Instr (SynchListCode α ι))} (h : ListInv lock listEmpty place m)
    (htodo : m.todo t = i :: rest) (hi : i.tests = some (s, cont))
    (hmutex : LockInv lock ((m.pass t s).setTodo t (cont ++ rest))) :
    ∃ place, ListInv lock listEmpty place ((m.pass t s).setTodo t (cont ++ rest)) := by
  have hsh := h.shaped t
  generalize hplace : place t = st at hsh
  rw [htodo] at hsh
  obtain ⟨rfl, _, hcont⟩ := shaped_tests hi hsh
  have hnot : ¬ Holds m.log t lock := by
    rw [h.holds t, hplace]
    simp [Stage.holds]
  have hlog : ∀ u, Holds (m.log ++ [.pDone t s]) u lock ↔ Holds m.log u lock := by
    intro u
    rw [Holds, Holds, lockPhase_append]
    cases s with
    | sem n => rfl
    | lock l =>
      by_cases hu : t = u ∧ l = lock
      · obtain ⟨rfl, rfl⟩ := hu
        simpa [LockPhase.next, Holds] using hnot
      · simp [LockPhase.next, hu]
  refine ⟨update place t .out, h.keep le_rfl rfl rfl rfl hmutex
    (h.holds_update hlog (by rw [hplace])) hcont ?_ (Or.inl hplace.symm)⟩
  intro hre
  rw [htodo, retests_cons, isRetest_of_tests hi] at hre
  simp_all [retests_append]

/-- A lock is given back, by the list or by its user. -/
theorem ListInv.release {l : Nat} (h : ListInv lock listEmpty place m)
    (hfree : t ∉ m.queue (.cond listEmpty)) (htodo : m.todo t = .call (.release l) :: rest)
    (hmutex : LockInv lock ((m.release t l).setTodo t rest)) :
    ∃ place, ListInv lock listEmpty place ((m.release t l).setTodo t rest) := by
  have hsh := h.shaped t
  generalize hplace : place t = st at hsh
  rw [htodo] at hsh
  have hretest := retests_of_cons htodo rfl
  cases hsh with
  | foreign hf =>
    have hl : l ≠ lock := by
      simpa [Instr.isForeign, Call.polite] using hf.head
    refine h.stay (e := [.release t l, .v (.lock l)]) hplace hmutex le_rfl rfl ?_ rfl ?_ ?_
      (.foreign hf.tail) hretest
    · simp [setTodo, Synch.release, Synch.v, record]
    · exact log_release m t l rest
    · simp [LockPhase.next, hl]
  | critical hc => cases hc
  | release hf =>
    refine ⟨update place t .out, h.keep le_rfl rfl ?_ rfl hmutex ?_ (.foreign hf) hretest
      (Or.inr ⟨hfree, by simp [hplace]⟩)⟩
    · simp [setTodo, Synch.release, Synch.v, record]
    · refine h.holds_release (e := []) ?_ (by simp) rfl
      simp [setTodo, Synch.release, Synch.v, record]

/-- A thread begins to wait and gives its lock back. -/
theorem ListInv.wait {c l : Nat}
    (h : ListInv lock listEmpty place m) (hfree : t ∉ m.queue (.cond listEmpty))
    (htodo : m.todo t = .call (.wait c l) :: rest)
    (hmutex : LockInv lock (((m.record [.waitRelease t c]).release t l).setTodo t
      (.waitAppend c :: .call (.acquire l) :: .waitReturn c l :: rest))) :
    ∃ place, ListInv lock listEmpty place (((m.record [.waitRelease t c]).release t l).setTodo t
      (.waitAppend c :: .call (.acquire l) :: .waitReturn c l :: rest)) := by
  have hsh := h.shaped t
  generalize hplace : place t = st at hsh
  rw [htodo] at hsh
  cases hsh with
  | foreign hf =>
    obtain ⟨hc, hl⟩ : c ≠ listEmpty ∧ l ≠ lock := by
      simpa [Instr.isForeign, Call.polite] using hf.head
    refine h.stay (e := [.waitRelease t c, .release t l, .v (.lock l)]) hplace hmutex le_rfl
      rfl ?_ rfl ?_ ?_ (.foreign ?_) ?_
    · simp [setTodo, Synch.release, Synch.v, record]
    · exact log_wait m t c l _
    · simp [LockPhase.next, hl]
    · have htail := hf.tail
      simp_all [Foreign, Instr.isForeign, Call.polite]
    · simp [htodo, hf.retests_eq]
  | critical hc => cases hc
  | wait hf =>
    refine ⟨update place t .joining, h.moveEmpty rfl rfl (h.empty t (Or.inl hplace)) hmutex
      ?_ (.joining hf) ?_⟩
    · refine h.holds_release (e := [.waitRelease t listEmpty]) ?_
        (by simp [LockPhase.next]) rfl
      simp [setTodo, Synch.release, Synch.v, record]
    · intro u hu
      have hu' : u ∈ m.queue (.cond listEmpty) := by
        simpa [setTodo, Synch.release, Synch.v, record] using hu
      exact Or.inl ⟨fun he => hfree (he ▸ hu'), hu'⟩

/-- A thread signals a condition. -/
theorem ListInv.wake {i : Instr (SynchListCode α ι)} {c l n : Nat}
    (h : ListInv lock listEmpty place m) (hd : m.Dispatched t o)
    (hatomic : ∀ u, .waitAppend listEmpty ∈ m.todo u → u = t) (htodo : m.todo t = i :: rest)
    (hi : m.wakes i = some (c, l, n)) (hmutex : LockInv lock ((m.wake c n).setTodo t rest)) :
    ∃ place, ListInv lock listEmpty place ((m.wake c n).setTodo t rest) := by
  have hsh := h.shaped t
  generalize hplace : place t = st at hsh
  rw [htodo] at hsh
  cases hsh with
  | foreign hf =>
    have hc : c ≠ listEmpty := by
      have hhead := hf.head
      rcases wakes_cases hi with rfl | rfl <;> simpa [Instr.isForeign, Call.polite] using hhead
    have hne : QueueId.cond listEmpty ≠ .cond c := by
      simpa using Ne.symm hc
    refine h.stay hplace hmutex le_rfl rfl (update_of_ne hne _ _) rfl rfl ?_
      (.foreign hf.tail) (by simp [htodo, hf.retests_eq])
    exact next_wake _ c lock
  | critical hc => cases hc <;> cases hi
  | signal hf =>
    cases hi
    exact ⟨_, h.signal hd hatomic htodo hplace hf rfl hmutex⟩
  | _ => cases hi

/-- A thread has got a lock. -/
theorem ListInv.acquired {l : Nat}
    (h : ListInv lock listEmpty place m) (hfree : t ∉ m.queue (.cond listEmpty))
    (htodo : m.todo t = .acquired l :: rest)
    (hmutex : LockInv lock (({ m with holdingThread := update m.holdingThread l (some (m.address t))
      }.record [.acquired t l]).setTodo t rest)) :
    ∃ place, ListInv lock listEmpty place
      (({ m with holdingThread := update m.holdingThread l (some (m.address t))
        }.record [.acquired t l]).setTodo t rest) := by
  have hsh := h.shaped t
  generalize hplace : place t = st at hsh
  rw [htodo] at hsh
  have hretest := retests_of_cons htodo rfl
  cases hsh with
  | foreign hf =>
    have hl : l ≠ lock := by
      simpa [Instr.isForeign] using hf.head
    exact h.stay hplace hmutex le_rfl rfl rfl rfl rfl (by simp [LockPhase.next, hl])
      (.foreign hf.tail) hretest
  | acquired hc =>
    refine ⟨update place t .locked, h.keep le_rfl rfl rfl rfl hmutex ?_ (.critical hc) hretest
      (Or.inr ⟨hfree, by simp [hplace]⟩)⟩
    refine h.holds_move (p := .held) rfl (by simp [LockPhase.next]) ?_ (by simp [Stage.holds])
    intro u hut
    simp [LockPhase.next, Ne.symm hut]
  | critical hc => cases hc

/-- A thread that waits goes to the queue. -/
theorem ListInv.waitAppend {c : Nat}
    (h : ListInv lock listEmpty place m) (htodo : m.todo t = .waitAppend c :: rest)
    (hmutex : LockInv lock (((m.block t (.cond c)).record [.join t c]).setTodo t rest)) :
    ∃ place, ListInv lock listEmpty place
      (((m.block t (.cond c)).record [.join t c]).setTodo t rest) := by
  have hsh := h.shaped t
  generalize hplace : place t = st at hsh
  rw [htodo] at hsh
  cases hsh with
  | foreign hf =>
    have hc : c ≠ listEmpty := by
      simpa [Instr.isForeign] using hf.head
    have hne : QueueId.cond listEmpty ≠ .cond c := by
      simpa using Ne.symm hc
    exact h.stay hplace hmutex le_rfl rfl (update_of_ne hne _ _) rfl rfl
      (by simp [LockPhase.next]) (.foreign hf.tail) (by simp [htodo, hf.retests_eq])
  | critical hc => cases hc
  | joining hf =>
    refine ⟨update place t .out, h.moveEmpty rfl rfl (h.empty t (Or.inr hplace)) hmutex
      (h.holds_update ?_ (by rw [hplace]; rfl)) (.acquire (.waited hf)) ?_⟩
    · exact holds_append (by simp [LockPhase.next])
    · intro u hu
      by_cases hut : u = t
      · exact Or.inr ⟨hut, by simp [retests_cons, Instr.isRetest], rfl⟩
      · refine Or.inl ⟨hut, ?_⟩
        simpa [setTodo, record, Synch.block, hut] using hu

/-- Every step keeps the invariant of a synchronized list with a polite
user. -/
theorem ListInv.step {user : ListUser α ι σ η}
    (h : ListInv lock listEmpty place m) (huser : user.Polite lock listEmpty)
    (hd : m.Dispatched t o) (hatomic : ∀ u, .waitAppend listEmpty ∈ m.todo u → u = t)
    (hstart : ∀ cs, o = .start cs → ∀ c ∈ cs, c.polite lock listEmpty = true)
    (hstep : Step (synchList lock listEmpty user) t o m m') :
    ∃ place, ListInv lock listEmpty place m' := by
  have hmutex := h.mutex.step hd (h.disciplined hstep) hstep
  have hnil : m.log = m.log ++ [] := (List.append_nil _).symm
  have hsh := h.shaped t
  generalize hplace : place t = st at hsh
  cases hstep with
  | quiet m ho => exact ⟨place, h⟩
  | newThread m ho =>
    exact h.stay hplace hmutex (Nat.le_succ _) (update_eq_self _ _).symm rfl rfl hnil
      (by simp) hsh id
  | fork htodo hut hfresh => exact h.fork htodo hut hfresh hmutex
  | finish htodo hrest =>
    rw [htodo] at hsh
    cases hsh with
    | foreign hf =>
      refine h.stay hplace hmutex le_rfl rfl rfl rfl hnil (by simp)
        (.foreign (by simp [Foreign])) ?_
      simp [htodo, hf.retests_eq]
    | critical hc => cases hc
  | client sch htodo hs hexec =>
    exact h.client huser hatomic htodo hexec hmutex
  | @block _ i rest s cont htodo hi hv =>
    rw [htodo] at hsh
    obtain ⟨rfl, hloop, _⟩ := shaped_tests hi hsh
    refine h.stay hplace hmutex le_rfl rfl ?_ rfl hnil (by simp) hloop ?_
    · simp [setTodo, Synch.block]
    · intro hre
      rw [htodo, retests_cons, isRetest_of_tests hi] at hre
      simp_all [retests_cons, retests_append]
  | pass htodo hi hv => exact h.pass htodo hi hmutex
  | @v _ n rest htodo =>
    rw [htodo] at hsh
    have hretest := retests_of_cons htodo rfl
    cases hsh with
    | foreign hf =>
      refine h.stay hplace hmutex le_rfl rfl ?_ rfl rfl (by simp [LockPhase.next])
        (.foreign hf.tail) hretest
      simp [setTodo, Synch.v, record]
    | handler n h' =>
      refine h.stay hplace hmutex le_rfl rfl ?_ rfl rfl (by simp [LockPhase.next]) h' hretest
      simp [setTodo, Synch.v, record]
    | critical hc => cases hc
  | release htodo => exact h.release (hd.free _ rfl rfl _) htodo hmutex
  | wait htodo => exact h.wait (hd.free _ rfl rfl _) htodo hmutex
  | wake htodo hi hh => exact h.wake hd hatomic htodo hi hmutex
  | @noWake _ i rest c l n htodo hi hh =>
    rw [htodo] at hsh
    cases hsh with
    | foreign hf =>
      exact h.stay hplace hmutex le_rfl rfl rfl rfl hnil (by simp) (.foreign hf.tail)
        (by simp [htodo, hf.retests_eq])
    | critical hc => cases hc <;> cases hi
    | signal hf =>
      cases hi
      exact absurd (h.mutex.holder t ((h.holds t).mpr (by rw [hplace]; rfl))) hh
    | _ => cases hi
  | acquired htodo => exact h.acquired (hd.free _ rfl rfl _) htodo hmutex
  | waitAppend htodo => exact h.waitAppend htodo hmutex
  | @waitReturn _ c l rest htodo =>
    rw [htodo] at hsh
    have hretest := retests_of_cons htodo rfl
    cases hsh with
    | foreign hf =>
      exact h.stay hplace hmutex le_rfl rfl rfl rfl hnil (by simp) (.foreign hf.tail) hretest
    | critical hc =>
      cases hc with
      | waited hf =>
        exact h.stay hplace hmutex le_rfl rfl rfl rfl hnil (by simp)
          (.critical (.remove hf)) hretest
  | start cs htodo =>
    rw [htodo] at hsh
    cases hsh with
    | foreign hf =>
      exact h.stay hplace hmutex le_rfl rfl rfl rfl hnil (by simp)
        (.foreign (foreign_map_call (hstart cs rfl))) (by simp [htodo, retests])
    | critical hc => cases hc
  | interrupt hhandler =>
    obtain ⟨r', _, rfl⟩ := Option.map_eq_some_iff.mp hhandler
    exact h.stay hplace hmutex le_rfl rfl rfl rfl hnil (by simp) (shaped_map_v _ hsh)
      (by simp +contextual [retests_append])

end Steps

end Synch

namespace Kernel

/-! ## The list in the kernel -/

/-- The threads that have been signalled and have not tested the list again:
they have left the queue of the condition and not come to their next test. -/
def signalled (listEmpty : Nat) (k : Kernel (SynchListCode α ι) σ) : Finset ThreadPtr :=
  (Finset.range k.sched.created).filter fun t =>
    retests (k.code t) = true ∧ (k.code t).any (Instr.entersWait listEmpty) = false ∧
      t ∉ (k.sched.queue (.cond listEmpty)).items

/-- Only the current thread can be between `list->Append` and the `Signal`,
and the `Signal` is its next instruction. -/
def AtomicSignal (lock listEmpty : Nat) (k : Kernel (SynchListCode α ι) σ) : Prop :=
  ∀ u, .call (.signal listEmpty lock) ∈ k.code u → u = k.cur ∧ ∃ rest,
    k.code k.cur = .call (.signal listEmpty lock) :: rest ∧
      .call (.signal listEmpty lock) ∉ rest

/-- A synchronized list is a blocking first-in first-out queue. -/
structure BlockingFifo (lock listEmpty : Nat) (user : ListUser α ι σ η)
    (k : Kernel (SynchListCode α ι) (SynchListData α × σ)) : Prop where
  fifo : k.shared.1.removed <+: k.shared.1.appended
  /-- The list holds the items that are appended and not removed. -/
  kept : k.shared.1.appended.drop k.shared.1.removed.length = k.shared.1.list.items
  /-- `ASSERT(item != NULL)` does not fail. -/
  assert : ∀ again rest, k.code k.cur = .call (.client (.removeLoop again)) :: rest →
    (k.step (synchList lock listEmpty user) .exec).isSome = true
  /-- No lost wakeup.  `list->Append` and the `Signal` are one piece: no other
  thread and no interrupt handler runs between them. -/
  noLost : (k.sched.queue (.cond listEmpty)).items ≠ [] →
    (∀ rest, k.code k.cur ≠ .call (.signal listEmpty lock) :: rest) →
    k.shared.1.list.length ≤ (k.signalled listEmpty).card

section Lists

variable {lock listEmpty : Nat} {place : ThreadPtr → Stage} {user : ListUser α ι σ η}
  {k k' : Kernel (SynchListCode α ι) (SynchListData α × σ)}
  {a : Action (SynchListCode α ι) η}

theorem mem_todo_signal {c l : Nat} {u : ThreadPtr} :
    .call (.signal c l) ∈ k.synch.todo u ↔ .call (.signal c l) ∈ k.code u := by
  simp [synch, synchCode, Instr.isSynch]

theorem politeStart_label (h : PoliteStart lock listEmpty a) :
    ∀ cs, k.label a = .start cs → ∀ c ∈ cs, c.polite lock listEmpty = true := by
  intro cs hl
  cases a with
  | start cs' =>
    cases hl
    exact h
  | exec =>
    simp only [label] at hl
    split at hl <;> cases hl
  | interrupt d => cases hl
  | timer => cases hl

/-- Only the body of `Append` comes to a `Signal`. -/
theorem signal_added {t u : ThreadPtr} {o : Label (SynchListCode α ι)}
    {m : Synch (SynchListCode α ι) (SynchListData α × σ)}
    (huser : user.Polite lock listEmpty)
    (hstart : ∀ cs, o = .start cs → ∀ c ∈ cs, c.polite lock listEmpty = true)
    (h : Synch.Added (synchList lock listEmpty user) m t o u
      (.call (.signal listEmpty lock))) :
    u = t ∧ ∃ item, o = .exec (.call (.client (.appendBody item))) := by
  have himpolite : (Call.signal listEmpty lock : Call (SynchListCode α ι)).polite lock
      listEmpty = false := by
    simp [Call.polite]
  cases h with
  | fork hj => simp at hj
  | @client i r _ s hexec hc =>
    cases i with
    | append item | remove =>
      cases hexec
      simp at hc
    | appendBody item => exact ⟨rfl, item, rfl⟩
    | removeLoop again =>
      obtain ⟨r', hr', rfl⟩ := Option.map_eq_some_iff.mp hexec
      rcases removeLoop_cases hr' with ⟨_, rfl⟩ | ⟨e, es, _, rfl⟩
      · simp at hc
      · simp at hc
    | user j =>
      obtain ⟨r', hr', rfl⟩ := Option.map_eq_some_iff.mp hexec
      have := huser s j m.shared.2 r' hr' _ hc
      rw [himpolite] at this
      cases this
  | test hi hj => rcases Synch.tests_cont hi hj with h | ⟨_, h⟩ <;> cases h
  | wait hj => simp at hj
  | start hc =>
    have := hstart _ rfl _ hc
    rw [himpolite] at this
    cases this

/-- Every step keeps `list->Append` and the `Signal` together. -/
theorem atomicSignal_step (hc : k.Control) (h : k.AtomicSignal lock listEmpty)
    (huser : user.Polite lock listEmpty) (hfork : k.ForkOnce a)
    (hstart : PoliteStart lock listEmpty a)
    (hstep : k.step (synchList lock listEmpty user) a = some k') :
    k'.AtomicSignal lock listEmpty := by
  by_cases hnone : ∀ u, .call (.signal listEmpty lock) ∉ k.code u
  · intro u hmem
    rcases Synch.mem_todo_step (synch_step hc hfork hstep) (mem_todo_signal.mpr hmem) with
      hm | hadded
    · exact absurd (mem_todo_signal.mp hm) (hnone u)
    · obtain ⟨rfl, item, hl⟩ := signal_added huser (politeStart_label hstart) hadded
      obtain ⟨rfl, rest, hcode⟩ := label_eq_exec hl
      have hrest := hnone k.cur
      rw [hcode] at hrest
      simp only [step, hcode, execInstr, execCall, synchList, Option.map_some,
        Option.some.injEq] at hstep
      subst hstep
      refine ⟨rfl, .call (.release lock) :: rest, ?_, ?_⟩
      · simp [setCode]
      · simpa using hrest
  · simp only [not_forall, not_not] at hnone
    obtain ⟨u, hmem⟩ := hnone
    obtain ⟨rfl, rest, hcode, hrest⟩ := h u hmem
    have ha : a = .exec := by
      cases a with
      | exec => rfl
      | start cs => simp [step, hcode] at hstep
      | interrupt d | timer => simp [step, inDueLoop, hcode] at hstep
    subst ha
    have hk' : k' = k.signal listEmpty lock rest := by
      simpa [step, hcode, execInstr, execCall] using hstep.symm
    intro u hmem'
    exfalso
    have hcode' : k'.code = update k.code k.cur (.setLevel k.level :: rest) := by
      rw [hk', signal]
      split
      · simp only [setCode, record, disable, cur, Sched.wake_currentThread]
      · rfl
    rw [hcode'] at hmem'
    by_cases hu : u = k.cur
    · simp [hu, hrest] at hmem'
    · rw [update_of_ne hu] at hmem'
      exact hu (h u hmem').1

/-- The invariant of a run with a synchronized list. -/
structure Listed (lock listEmpty : Nat)
    (k : Kernel (SynchListCode α ι) (SynchListData α × σ)) : Prop where
  mesa : k.Mesa
  atomic : k.AtomicSignal lock listEmpty
  list : ∃ place, Synch.ListInv lock listEmpty place k.synch

theorem listed_step (h : k.Listed lock listEmpty) (huser : user.Polite lock listEmpty)
    (hfork : k.ForkOnce a) (hstart : PoliteStart lock listEmpty a)
    (hstep : k.step (synchList lock listEmpty user) a = some k') :
    k'.Listed lock listEmpty where
  mesa := mesa_step h.mesa hfork hstep
  atomic := atomicSignal_step h.mesa.control h.atomic huser hfork hstart hstep
  list := by
    obtain ⟨place, hlist⟩ := h.list
    refine hlist.step huser (dispatched_of_control h.mesa.control a) ?_
      (politeStart_label hstart) (synch_step h.mesa.control hfork hstep)
    intro u hu
    exact (h.mesa.atomic u listEmpty (mem_todo_waitAppend.mp hu)).1

theorem listed_init (initialValue : Nat → Int) (holding : Nat → Option ThreadPtr) (x : σ) :
    (init initialValue holding (⟨[], [], []⟩, x) :
      Kernel (SynchListCode α ι) (SynchListData α × σ)).Listed lock listEmpty where
  mesa := mesa_init _ _ _
  atomic u hmem := by simp [init] at hmem
  list := by
    refine ⟨fun _ => .out, ?_⟩
    constructor
    · intro t
      exact .foreign (by simp [Foreign, init, synch, synchCode])
    · intro t
      simp [Holds, lockPhase, init, synch, Stage.holds]
    · exact lockInv_init _ _ _ _
    · rfl
    · simp [init, synch]
    · intro _ hq
      exact absurd rfl hq
    · intro t ht
      cases ht
    · intro t ht
      rfl
    · intro t ht
      cases ht

/-- The threads that the invariant counts have been signalled. -/
theorem signalled_of_place (h : Synch.ListInv lock listEmpty place k.synch) :
    k.synch.signalled listEmpty place ⊆ k.signalled listEmpty := by
  intro t ht
  simp only [Synch.signalled, signalled, Finset.mem_filter, Finset.mem_range] at ht ⊢
  obtain ⟨hlt, hre, hne, hnj, hq⟩ := ht
  refine ⟨hlt, ?_, ?_, hq⟩
  · obtain ⟨i, hi, hre⟩ := List.any_eq_true.mp hre
    exact List.any_eq_true.mpr ⟨i, List.mem_of_mem_filter hi, hre⟩
  · by_contra hw
    obtain ⟨i, hi, hw⟩ := List.any_eq_true.mp (eq_true_of_ne_false hw)
    have hmem : i ∈ k.synch.todo t := List.mem_filter.mpr ⟨hi, isSynch_of_entersWait hw⟩
    rcases (h.shaped t).entersWait (List.any_eq_true.mpr ⟨i, hmem, hw⟩) with hst | hst
    · exact hne hst
    · exact hnj hst

theorem Listed.blockingFifo (h : k.Listed lock listEmpty) :
    k.BlockingFifo lock listEmpty user := by
  obtain ⟨place, hlist⟩ := h.list
  have hfifo : k.shared.1.appended = k.shared.1.removed ++ k.shared.1.list.items := hlist.fifo
  constructor
  · rw [hfifo]
    exact List.prefix_append _ _
  · rw [hfifo, List.drop_left]
  · intro again rest hcode
    obtain ⟨r, hr⟩ := Option.isSome_iff_exists.mp
      (removeLoop_isSome (ι := ι) lock listEmpty hlist.nonnull)
    have hr : removeLoop lock listEmpty k.shared.1 = some r := hr
    simp [step, hcode, execInstr, execCall, synchList, hr]
  · intro hq hcur
    have hnone : ∀ t, place t ≠ .appended := by
      intro t ht
      have hsh := hlist.shaped t
      rw [ht] at hsh
      obtain ⟨rfl, rest, hcode, _⟩ := h.atomic t (mem_todo_signal.mp hsh.appended_mem)
      exact hcur rest hcode
    calc k.shared.1.list.length ≤ (k.synch.signalled listEmpty place).card :=
          Int.ofNat_le.mp (hlist.noLost hnone hq)
      _ ≤ (k.signalled listEmpty).card := Finset.card_le_card (signalled_of_place hlist)

/-- In every run of a program that leaves the lock and the condition of the
list alone, the list is a blocking first-in first-out queue. -/
theorem synchList_blockingFifo (lock listEmpty : Nat) (user : ListUser α ι σ η)
    (huser : user.Polite lock listEmpty) (initialValue : Nat → Int)
    (holding : Nat → Option ThreadPtr) (x : σ) (as : List (Action (SynchListCode α ι) η))
    (k : Kernel (SynchListCode α ι) (SynchListData α × σ))
    (hok : Along (step (synchList lock listEmpty user))
      (fun k a => k.ForkOnce a ∧ PoliteStart lock listEmpty a)
      (init initialValue holding (⟨[], [], []⟩, x)) as)
    (hrun : run (step (synchList lock listEmpty user))
      (init initialValue holding (⟨[], [], []⟩, x)) as = some k) :
    k.BlockingFifo lock listEmpty user := by
  have h := run_invariant (I := fun k => k.Listed lock listEmpty)
    (fun k a k' h hok hstep => listed_step h huser hok.1 hok.2 hstep)
    (listed_init _ _ _) hok hrun
  exact h.blockingFifo

end Lists

/-- Threads that use the list and do nothing else. -/
def listOnly : ListUser Nat Empty Unit Empty where
  exec _ i _ := i.elim
  handler d _ := d.elim

/-- Two threads remove from the empty list before the main thread appends. -/
def removeTwiceAppend (n : Nat) : List (Action (SynchListCode Nat Empty) Empty) :=
  .start [.newThread 255, .newThread 255, .fork 1 .remove, .fork 2 .remove, .yield,
    .client (.append (some 7))] :: List.replicate n .exec

/-- After the `Signal` one thread waits, and the other is to take the item. -/
theorem synchList_blockingFifo_waiter :
    ∃ k : Kernel (SynchListCode Nat Empty) (SynchListData Nat × Unit),
      run (step (synchList 0 0 listOnly)) (init (fun _ => 0) (fun _ => none) (⟨[], [], []⟩, ()))
          (removeTwiceAppend 43) = some k ∧
        (k.sched.queue (.cond 0)).items = [2] ∧ k.shared.1.list.items = [some 7] ∧
        k.BlockingFifo 0 0 listOnly :=
  ⟨_, rfl, rfl, rfl, synchList_blockingFifo 0 0 listOnly (fun _ i => i.elim) (fun _ => 0)
    (fun _ => none) () (removeTwiceAppend 43) _ (by decide) rfl⟩

end Kernel

end Nachos.Threads

import Nachos.Lib.Occupancy
import Nachos.Threads.Monitor

/-!
# The barrier

`barrierRun` of `threads/threadtest.cc` counts the threads that reach the
savepoint.  The thread that makes `barrierCnt` equal to `barrierSize` wakes the
others, and every other thread waits on `barrierCondition`.  The counter is
never set back, and the test is `==`.  So a thread that comes after the
`barrierSize`-th one waits as well, and nobody is left to wake it.

`barrierCnt` is an `Int`, without overflow.  `BarrierData` also keeps the threads
that have been counted and those that have gone on.

As for the bounded buffer, the proof is about the monitor of `conditionLock`.
`BarrierPlace` are the places of a thread in it, and `BarrierStage` says on which side
of the barrier a place is.
-/

namespace Nachos.Threads

open Function Lib

/-! ## The code -/

def conditionLock : Nat := 0

def barrierCondition : Nat := 0

def barrierSize : Int := 4

/-- The code of `barrierRun`. -/
inductive BarrierCode where
  | barrierRun
  /-- From `barrierCnt++` to the `Broadcast` or `Wait`. -/
  | count
  /-- The `printf` after the barrier. -/
  | continues
  deriving DecidableEq

/-- The counter, and the history of the barrier. -/
structure BarrierData where
  barrierCnt : Int
  /-- The threads that have incremented the counter. -/
  arrived : List ThreadPtr
  /-- The threads that have gone on after the barrier. -/
  continued : List ThreadPtr

def barrier : Program BarrierCode BarrierData Empty where
  exec s i x :=
    match i with
    | .barrierRun => some (x, [.acquire conditionLock, .client .count])
    | .count =>
        let x := { x with
          barrierCnt := x.barrierCnt + 1
          arrived := x.arrived ++ [s.currentThread] }
        if x.barrierCnt = barrierSize then
          some (x, [.broadcast barrierCondition conditionLock, .release conditionLock,
            .client .continues, .oneTick])
        else
          some (x, [.wait barrierCondition conditionLock, .release conditionLock,
            .client .continues, .oneTick])
    | .continues => some ({ x with continued := x.continued ++ [s.currentThread] }, [])
  handler d := d.elim

/-- The lock and the condition belong to `barrierRun`. -/
def barrierGuarded : Guarded BarrierCode where
  lock := conditionLock
  cond c := c == barrierCondition
  entry
    | .barrierRun => true
    | _ => false

/-! ## The places -/

/-- The places of a thread in the monitor. -/
inductive BarrierPlace where
  | out
  | arriving
  | counting
  /-- The thread is the last one, and is to wake the others. -/
  | opening
  | blocking
  | asleep
  | woken
  | leaving
  | gone
  deriving DecidableEq

/-- Where a place is: before the barrier, at it, or behind it. -/
inductive BarrierStage where
  | before
  | gathered
  | past
  deriving DecidableEq

namespace BarrierPlace

/-- What the thread still has to do in the monitor. -/
def code : BarrierPlace → List (Instr BarrierCode)
  | .out => []
  | .arriving => [.call (.acquire conditionLock), .call (.client .count)]
  | .counting => [.call (.client .count)]
  | .opening => [.call (.broadcast barrierCondition conditionLock),
      .call (.release conditionLock), .call (.client .continues)]
  | .blocking => [.call (.wait barrierCondition conditionLock),
      .call (.release conditionLock), .call (.client .continues)]
  | .asleep | .woken => [.call (.acquire conditionLock), .call (.release conditionLock),
      .call (.client .continues)]
  | .leaving => [.call (.release conditionLock), .call (.client .continues)]
  | .gone => [.call (.client .continues)]

/-- The thread is inside the lock. -/
def inLock : BarrierPlace → Bool
  | .counting | .opening | .blocking | .leaving => true
  | _ => false

def stage : BarrierPlace → BarrierStage
  | .out | .arriving | .counting => .before
  | .blocking | .asleep => .gathered
  | .opening | .woken | .leaving | .gone => .past

/-- The thread has been woken, or it is asleep. -/
def wake (p : BarrierPlace) : BarrierPlace :=
  if p = .asleep then .woken else p

theorem code_wake (p : BarrierPlace) : p.wake.code = p.code := by
  cases p <;> rfl

theorem inLock_wake (p : BarrierPlace) : p.wake.inLock = p.inLock := by
  cases p <;> rfl

theorem wake_ne_asleep (p : BarrierPlace) : p.wake ≠ .asleep := by
  cases p <;> decide

/-- Who is still at the barrier after a `Broadcast` has not slept yet. -/
theorem inLock_of_stage_wake {p : BarrierPlace} (h : p.wake.stage = .gathered) :
    p.inLock = true := by
  cases p <;> first | rfl | cases h

/-- Who is behind the barrier, as its code tells. -/
theorem stage_of_code {p : BarrierPlace}
    (h : p.code = leaving.code ∨ p.code = gone.code) : p.stage = .past := by
  cases p <;> rcases h with h | h <;> first | rfl | cases h

end BarrierPlace

/-! ## The invariant -/

/-- The invariant of the barrier. -/
structure BarrierInv (place : ThreadPtr → BarrierPlace) (m : Monitor BarrierCode BarrierData) :
    Prop where
  code : ∀ t, m.code t = (place t).code
  holder : Sole (fun p => p.inLock = true) place m.holder
  asleep : ∀ t, t ∈ m.waiting barrierCondition ↔ place t = .asleep
  count : m.shared.barrierCnt = m.shared.arrived.length
  /-- The first `barrierSize` arrivals are of different threads. -/
  distinct : (m.shared.arrived.take barrierSize.toNat).Nodup
  /-- Until the last thread comes, those that have come are at the barrier. -/
  closed : m.shared.barrierCnt < barrierSize → m.shared.continued = [] ∧
    ∀ t, (place t).stage ≠ .past ∧ (t ∈ m.shared.arrived ↔ (place t).stage = .gathered)
  /-- When the last thread has come, it is to open the barrier, or has done so. -/
  opened : m.shared.barrierCnt = barrierSize →
    (∃ t, place t = .opening) ∨ ∀ t, (place t).stage ≠ .gathered

namespace BarrierInv

variable {place : ThreadPtr → BarrierPlace} {m m' : Monitor BarrierCode BarrierData}
  {t : ThreadPtr} {p : BarrierPlace}

/-- A thread behind the barrier, and the number of those that have come. -/
theorem size_le (h : BarrierInv place m) (ht : (place t).stage = .past) :
    barrierSize ≤ m.shared.barrierCnt := by
  by_contra hlt
  exact ((h.closed (by omega)).2 t).1 ht

theorem code_move (h : BarrierInv place m) (hcode : m'.code = update m.code t p.code) :
    ∀ u, m'.code u = (update place t p u).code := by
  rw [hcode]
  refine (forall_update_iff place fun u (q : BarrierPlace) =>
    update m.code t p.code u = q.code).mpr ⟨update_self _ _ _, fun u hu => ?_⟩
  rw [update_of_ne hu, h.code]

theorem asleep_move (h : BarrierInv place m) (ht : place t ≠ .asleep) (hp : p ≠ .asleep) :
    ∀ u, u ∈ m.waiting barrierCondition ↔ update place t p u = .asleep :=
  (forall_update_iff place fun u (q : BarrierPlace) =>
    u ∈ m.waiting barrierCondition ↔ q = .asleep).mpr
      ⟨by rw [h.asleep]; exact iff_of_false ht hp, fun u _ => h.asleep u⟩

/-- A thread moves, and nobody is counted.  Unless the barrier is open, the
thread stays on its side. -/
theorem move (h : BarrierInv place m) (hcode : m'.code = update m.code t p.code)
    (hholder : Sole (fun p => p.inLock = true) (update place t p) m'.holder)
    (hasleep : ∀ u, u ∈ m'.waiting barrierCondition ↔ update place t p u = .asleep)
    (hcnt : m'.shared.barrierCnt = m.shared.barrierCnt)
    (harrived : m'.shared.arrived = m.shared.arrived)
    (hcontinued : m.shared.barrierCnt < barrierSize →
      m'.shared.continued = m.shared.continued ∧ p.stage = (place t).stage)
    (hgathered : p.stage = .gathered → (place t).stage = .gathered)
    (hopening : place t ≠ .opening) : BarrierInv (update place t p) m' where
  code := h.code_move hcode
  holder := hholder
  asleep := hasleep
  count := by rw [hcnt, harrived, h.count]
  distinct := by
    rw [harrived]
    exact h.distinct
  closed hlt := by
    rw [hcnt] at hlt
    obtain ⟨hnil, hclosed⟩ := h.closed hlt
    obtain ⟨hsame, hstage⟩ := hcontinued hlt
    refine ⟨by rw [hsame, hnil], ?_⟩
    rw [harrived]
    refine (forall_update_iff place fun u (q : BarrierPlace) =>
      q.stage ≠ .past ∧ (u ∈ m.shared.arrived ↔ q.stage = .gathered)).mpr ⟨?_, fun u _ => hclosed u⟩
    rw [hstage]
    exact hclosed t
  opened hsize := by
    rw [hcnt] at hsize
    rcases h.opened hsize with ⟨u, hu⟩ | hnone
    · have hut : u ≠ t := by
        rintro rfl
        exact hopening hu
      exact Or.inl ⟨u, by rw [update_of_ne hut, hu]⟩
    · refine Or.inr ((forall_update_iff place fun _ (q : BarrierPlace) =>
        q.stage ≠ .gathered).mpr ⟨fun hp => hnone t (hgathered hp), fun u _ => hnone u⟩)

/-- A thread takes the lock when it arrives, and again when it has been woken. -/
theorem acquire {p : BarrierPlace} (h : BarrierInv place m) (hfree : m.holder = none)
    (hplace : place t = .arriving ∧ p = .counting ∨ place t = .woken ∧ p = .leaving) :
    BarrierInv (update place t p) ({ m with holder := some t }.setCode t p.code) := by
  have hholder := h.holder
  rw [hfree] at hholder
  rcases hplace with ⟨hplace, rfl⟩ | ⟨hplace, rfl⟩
  all_goals
    refine h.move rfl (hholder.enter rfl) (h.asleep_move ?_ ?_) rfl rfl (fun _ => ⟨rfl, ?_⟩) ?_ ?_
    all_goals simp [hplace, BarrierPlace.stage]

theorem release (h : BarrierInv place m) (hplace : place t = .leaving) :
    BarrierInv (update place t .gone)
      ({ m with holder := none }.setCode t BarrierPlace.gone.code) := by
  have hholder := h.holder
  rw [h.holder.holder_eq (t := t) (by rw [hplace]; rfl)] at hholder
  refine h.move rfl (hholder.leave (by simp [BarrierPlace.inLock])) (h.asleep_move ?_ ?_) rfl rfl
    (fun _ => ⟨rfl, ?_⟩) ?_ ?_
  all_goals simp [hplace, BarrierPlace.stage]

/-- A thread goes on. -/
theorem goOn {x : BarrierData} (h : BarrierInv place m) (hplace : place t = .gone)
    (hcnt : x.barrierCnt = m.shared.barrierCnt) (harrived : x.arrived = m.shared.arrived) :
    BarrierInv (update place t .out)
      ({ m with shared := x }.setCode t BarrierPlace.out.code) := by
  have hsize := h.size_le (t := t) (by rw [hplace]; rfl)
  refine h.move rfl (h.holder.stay ?_) (h.asleep_move ?_ ?_) hcnt harrived
    (fun hlt => absurd hsize (by omega)) ?_ ?_
  all_goals simp [hplace, BarrierPlace.stage, BarrierPlace.inLock]

theorem enter (h : BarrierInv place m) (hplace : place t = .out) :
    BarrierInv (update place t .arriving) (m.setCode t BarrierPlace.arriving.code) := by
  refine h.move rfl (h.holder.stay ?_) (h.asleep_move ?_ ?_) rfl rfl (fun _ => ⟨rfl, ?_⟩) ?_ ?_
  all_goals simp [hplace, BarrierPlace.stage, BarrierPlace.inLock]

theorem wait (h : BarrierInv place m) (hplace : place t = .blocking) :
    BarrierInv (update place t .asleep)
      ({ m with
          holder := none
          waiting := update m.waiting barrierCondition (m.waiting barrierCondition ++ [t])
        }.setCode t BarrierPlace.asleep.code) := by
  have hholder := h.holder
  rw [h.holder.holder_eq (t := t) (by rw [hplace]; rfl)] at hholder
  refine h.move rfl (hholder.leave (by simp [BarrierPlace.inLock])) ?_ rfl rfl
    (fun _ => ⟨rfl, ?_⟩) ?_ ?_
  · show ∀ u, u ∈ update m.waiting barrierCondition _ barrierCondition ↔ _
    rw [update_self]
    refine (forall_update_iff place fun u (q : BarrierPlace) =>
      u ∈ m.waiting barrierCondition ++ [t] ↔ q = .asleep).mpr ⟨by simp, fun u hu => ?_⟩
    rw [← h.asleep u]
    simp [hu]
  all_goals simp [hplace, BarrierPlace.stage]

/-- The last thread wakes all that wait. -/
theorem broadcast (h : BarrierInv place m) (hplace : place t = .opening) :
    BarrierInv (update (fun u => (place u).wake) t .leaving)
      ({ m with waiting := update m.waiting barrierCondition [] }.setCode t
        BarrierPlace.leaving.code) := by
  have hin : (place t).inLock = true := by
    rw [hplace]
    rfl
  have hsize := h.size_le (t := t) (by rw [hplace]; rfl)
  exact
    { code := by
        show ∀ u, update m.code t _ u = _
        refine (forall_update_iff (fun u => (place u).wake) fun u (q : BarrierPlace) =>
          update m.code t BarrierPlace.leaving.code u = q.code).mpr
            ⟨update_self _ _ _, fun u hu => ?_⟩
        rw [update_of_ne hu, BarrierPlace.code_wake, h.code]
      holder := by
        refine Sole.stay (fun u => ?_) ?_
        · rw [BarrierPlace.inLock_wake]
          exact h.holder u
        · rw [BarrierPlace.inLock_wake, hin]
          rfl
      asleep := by
        show ∀ u, u ∈ update m.waiting barrierCondition [] barrierCondition ↔ _
        rw [update_self]
        refine (forall_update_iff (fun u => (place u).wake) fun u (q : BarrierPlace) =>
          u ∈ [] ↔ q = .asleep).mpr ⟨by simp, fun u _ => ?_⟩
        simp [BarrierPlace.wake_ne_asleep]
      count := h.count
      distinct := h.distinct
      closed := fun hlt => by
        have hcnt : m.shared.barrierCnt < barrierSize := hlt
        omega
      opened := fun _ => by
        refine Or.inr ((forall_update_iff (fun u => (place u).wake) fun _ (q : BarrierPlace) =>
          q.stage ≠ .gathered).mpr ⟨by decide, fun u hu hstage => hu ?_⟩)
        exact h.holder.unique (BarrierPlace.inLock_of_stage_wake hstage) hin }

/-- The thread that is counted is a new one as long as the barrier is closed. -/
theorem distinct_append (h : BarrierInv place m) (hplace : place t = .counting) :
    ((m.shared.arrived ++ [t]).take barrierSize.toNat).Nodup := by
  have hcount := h.count
  have hdistinct := h.distinct
  by_cases hlt : m.shared.barrierCnt < barrierSize
  · have hnot : t ∉ m.shared.arrived := by
      rw [((h.closed hlt).2 t).2, hplace]
      decide
    rw [List.take_of_length_le (by omega)] at hdistinct
    have hnodup : (m.shared.arrived ++ [t]).Nodup := by
      rw [← List.concat_eq_append]
      exact hdistinct.concat hnot
    exact hnodup.sublist (List.take_sublist _ _)
  · rw [List.take_append_of_le_length (by omega)]
    exact hdistinct

/-- A thread is counted. -/
theorem counted (h : BarrierInv place m) (hplace : place t = .counting)
    (hopening : m.shared.barrierCnt + 1 = barrierSize → p = .opening)
    (hblocking : m.shared.barrierCnt + 1 ≠ barrierSize → p = .blocking) :
    BarrierInv (update place t p)
      ({ m with shared :=
          { m.shared with
            barrierCnt := m.shared.barrierCnt + 1
            arrived := m.shared.arrived ++ [t] } }.setCode t p.code) := by
  have hp : p = .opening ∨ p = .blocking := by
    by_cases hsize : m.shared.barrierCnt + 1 = barrierSize
    · exact Or.inl (hopening hsize)
    · exact Or.inr (hblocking hsize)
  exact
    { code := h.code_move rfl
      holder := h.holder.stay (by rcases hp with rfl | rfl <;> simp [hplace, BarrierPlace.inLock])
      asleep := h.asleep_move (by simp [hplace]) (by rcases hp with rfl | rfl <;> simp)
      count := by
        show m.shared.barrierCnt + 1 = ((m.shared.arrived ++ [t]).length : Int)
        rw [h.count, List.length_append]
        rfl
      distinct := h.distinct_append hplace
      closed := fun hlt => by
        have hlt' : m.shared.barrierCnt + 1 < barrierSize := hlt
        obtain ⟨hnil, hclosed⟩ := h.closed (by omega)
        refine ⟨hnil, (forall_update_iff place fun u (q : BarrierPlace) =>
          q.stage ≠ .past ∧ (u ∈ m.shared.arrived ++ [t] ↔ q.stage = .gathered)).mpr
            ⟨?_, fun u hu => ?_⟩⟩
        · rw [hblocking (by omega)]
          simp [BarrierPlace.stage]
        · rw [← (hclosed u).2]
          simpa [hu] using (hclosed u).1
      opened := fun hsize => Or.inl ⟨t, by rw [update_self, hopening hsize]⟩ }

/-- A thread in the monitor executes an instruction. -/
theorem client {s : Sched} {j : BarrierCode} {rest : List (Instr BarrierCode)}
    {c : BarrierData × List (Call BarrierCode)} (h : BarrierInv place m)
    (hown : m.code t = .call (.client j) :: rest) (hs : s.currentThread = t)
    (hexec : barrier.exec s j m.shared = some c) :
    ∃ place', BarrierInv place' ({ m with shared := c.1 }.setCode t
      (barrierGuarded.reserved.join
        ((synchCode (c.2.map Instr.call)).flatMap barrierGuarded.visible) rest)) := by
  have hcode := h.code t
  rw [hown] at hcode
  cases hplace : place t with
  | counting =>
      rw [hplace] at hcode
      cases hcode
      simp only [barrier, hs] at hexec
      split at hexec
      · rename_i hsize
        cases hexec
        exact ⟨_, h.counted (p := .opening) hplace (fun _ => rfl) (fun hne => absurd hsize hne)⟩
      · rename_i hsize
        cases hexec
        exact ⟨_, h.counted (p := .blocking) hplace (fun he => absurd he hsize) (fun _ => rfl)⟩
  | gone =>
      rw [hplace] at hcode
      cases hcode
      cases hexec
      exact ⟨_, h.goOn hplace rfl rfl⟩
  | _ =>
      rw [hplace] at hcode
      cases hcode

/-- Every step keeps the invariant. -/
theorem step (h : BarrierInv place m) (hstep : Monitor.Step barrierGuarded barrier t m m') :
    ∃ place', BarrierInv place' m' := by
  have hcode := h.code t
  cases hstep with
  | stay => exact ⟨place, h⟩
  | @enter i _ s hown hi hs hexec =>
      rw [hown] at hcode
      cases hplace : place t with
      | out =>
          cases i with
          | barrierRun =>
              cases hexec
              exact ⟨_, h.enter hplace⟩
          | _ => cases hi
      | _ =>
          rw [hplace] at hcode
          cases hcode
  | client s hown hs hexec => exact h.client hown hs hexec
  | acquire hown hfree hawake =>
      rw [hown] at hcode
      cases hplace : place t with
      | arriving =>
          rw [hplace] at hcode
          cases hcode
          exact ⟨_, h.acquire hfree (.inl ⟨hplace, rfl⟩)⟩
      | woken =>
          rw [hplace] at hcode
          cases hcode
          exact ⟨_, h.acquire hfree (.inr ⟨hplace, rfl⟩)⟩
      | asleep => exact absurd ((h.asleep t).mpr hplace) (hawake barrierCondition)
      | _ =>
          rw [hplace] at hcode
          cases hcode
  | release hown =>
      rw [hown] at hcode
      cases hplace : place t with
      | leaving =>
          rw [hplace] at hcode
          cases hcode
          exact ⟨_, h.release hplace⟩
      | _ =>
          rw [hplace] at hcode
          cases hcode
  | wait hown =>
      rw [hown] at hcode
      cases hplace : place t with
      | blocking =>
          rw [hplace] at hcode
          cases hcode
          exact ⟨_, h.wait hplace⟩
      | _ =>
          rw [hplace] at hcode
          cases hcode
  | signal hown =>
      rw [hown] at hcode
      cases hplace : place t <;> rw [hplace] at hcode <;> cases hcode
  | broadcast hown =>
      rw [hown] at hcode
      cases hplace : place t with
      | opening =>
          rw [hplace] at hcode
          cases hcode
          exact ⟨_, h.broadcast hplace⟩
      | _ =>
          rw [hplace] at hcode
          cases hcode
  | @device d r hexec => exact d.elim

/-- Every thread releases, waits and broadcasts inside the lock. -/
theorem disciplined (h : BarrierInv place m) : m.Disciplined barrierGuarded := by
  intro t i rest hown
  have hcode := h.code t
  have hholder : (place t).inLock = true → m.holder = some t := h.holder.holder_eq
  rw [hown] at hcode
  cases hplace : place t with
  | blocking =>
      rw [hplace] at hcode hholder
      cases hcode
      exact ⟨rfl, rfl, hholder rfl⟩
  | opening =>
      rw [hplace] at hcode hholder
      cases hcode
      exact ⟨rfl, hholder rfl⟩
  | leaving =>
      rw [hplace] at hcode hholder
      cases hcode
      exact hholder rfl
  | out =>
      rw [hplace] at hcode
      cases hcode
  | _ =>
      rw [hplace] at hcode
      cases hcode
      trivial

/-- Once the barrier is open, `barrierSize` threads have come. -/
theorem gathered (h : BarrierInv place m) (hsize : barrierSize ≤ m.shared.barrierCnt) :
    ∃ s : Finset ThreadPtr, s.card = barrierSize ∧ ∀ u ∈ s, u ∈ m.shared.arrived := by
  have hcount := h.count
  refine ⟨(m.shared.arrived.take barrierSize.toNat).toFinset, ?_, fun u hu => ?_⟩
  · rw [List.toFinset_card_of_nodup h.distinct, List.length_take]
    have hpos : 0 ≤ barrierSize := by decide
    omega
  · exact List.mem_of_mem_take (List.mem_toFinset.mp hu)

end BarrierInv

/-! ## The barrier in the kernel -/

namespace Kernel

/-- The thread has gone on after the barrier, or has left the `Wait` or the
`Broadcast` and is about to go on. -/
def PastBarrier (k : Kernel BarrierCode BarrierData) (t : ThreadPtr) : Prop :=
  t ∈ k.shared.continued ∨
    (k.monitor barrierGuarded).code t = BarrierPlace.leaving.code ∨
    (k.monitor barrierGuarded).code t = BarrierPlace.gone.code

/-- What `barrierRun` guarantees. -/
structure Barrier (k : Kernel BarrierCode BarrierData) : Prop where
  /-- Nobody passes before `barrierSize` threads have come. -/
  gathered : ∀ t, k.PastBarrier t →
    ∃ s : Finset ThreadPtr, s.card = barrierSize ∧ ∀ u ∈ s, u ∈ k.shared.arrived
  /-- As long as no more than `barrierSize` threads have come, nobody is left
  behind. -/
  emptied : k.shared.barrierCnt ≤ barrierSize → k.value (.lock conditionLock) ≠ 0 →
    barrierSize ≤ k.shared.barrierCnt → (k.sched.queue (.cond barrierCondition)).items = []

theorem barrier_of_inv {k : Kernel BarrierCode BarrierData}
    (h : k.Monitored barrierGuarded fun m => ∃ place, BarrierInv place m) : k.Barrier := by
  obtain ⟨place, hinv⟩ := h.inv
  constructor
  · intro t ht
    refine hinv.gathered ?_
    rcases ht with hmem | hcode
    · by_contra hlt
      have hnil : k.shared.continued = [] := (hinv.closed (by omega)).1
      rw [hnil] at hmem
      cases hmem
    · rw [hinv.code] at hcode
      exact hinv.size_le (BarrierPlace.stage_of_code hcode)
  · intro hle hfree hge
    have hsize : k.shared.barrierCnt = barrierSize := by omega
    refine List.eq_nil_iff_forall_not_mem.mpr fun t ht => ?_
    have hasleep := (hinv.asleep t).mp (h.mem_waiting rfl ht)
    rcases hinv.opened hsize with ⟨u, hu⟩ | hnone
    · have hholder := hinv.holder.holder_eq (t := u) (by rw [hu]; rfl)
      rw [h.holder_eq_none hfree] at hholder
      cases hholder
    · refine hnone t ?_
      rw [hasleep]
      rfl

/-- Nobody has called `barrierRun` yet. -/
theorem barrierInv_init (initialValue : Nat → Int) (holding : Nat → Option ThreadPtr) :
    ∃ place, BarrierInv place ((init initialValue holding ⟨0, [], []⟩ :
      Kernel BarrierCode BarrierData).monitor barrierGuarded) := by
  refine ⟨fun _ => .out, ?_⟩
  exact
    { code := fun _ => rfl
      holder := fun _ => ⟨nofun, nofun⟩
      asleep := fun _ => ⟨nofun, nofun⟩
      count := rfl
      distinct := List.nodup_nil
      closed := fun _ => ⟨rfl, fun _ => ⟨nofun, nofun, nofun⟩⟩
      opened := fun _ => Or.inr fun _ => nofun }

/-- In every run of threads that call `barrierRun`, nobody passes before
`barrierSize` threads have come, and while no more than these have come, nobody
is left behind. -/
theorem barrier_gathers (initialValue : Nat → Int) (holding : Nat → Option ThreadPtr)
    (as : List (Action BarrierCode Empty)) (k : Kernel BarrierCode BarrierData)
    (hok : Along (step barrier)
      (fun k a => k.ForkOnce a ∧ OutsideStart barrierGuarded.reserved a)
      (init initialValue holding ⟨0, [], []⟩) as)
    (hrun : run (step barrier) (init initialValue holding ⟨0, [], []⟩) as = some k) :
    k.Barrier :=
  barrier_of_inv (monitor_invariant
    (fun _ _ _ h hstep => h.elim fun _ hinv => hinv.step hstep)
    (fun _ h => h.elim fun _ hinv => hinv.disciplined)
    (barrierInv_init initialValue holding) hok hrun)

/-- Five threads call `barrierRun`. -/
def fiveThreads (n : Nat) : List (Action BarrierCode Empty) :=
  .start [.newThread 255, .newThread 255, .newThread 255, .newThread 255, .newThread 255,
    .fork 1 .barrierRun, .fork 2 .barrierRun, .fork 3 .barrierRun, .fork 4 .barrierRun,
    .fork 5 .barrierRun, .yield] :: List.replicate n .exec

/-- Four of them have come.  The fourth has gone on, and nobody waits. -/
theorem barrier_gathers_four : ∃ k : Kernel BarrierCode BarrierData,
    run (step barrier) (init (fun _ => 0) (fun _ => none) ⟨0, [], []⟩) (fiveThreads 72) =
      some k ∧ k.PastBarrier 4 ∧ k.shared.barrierCnt = barrierSize ∧
      k.value (.lock conditionLock) ≠ 0 ∧ k.Barrier :=
  ⟨_, rfl, Or.inl (by decide), rfl, by decide,
    barrier_gathers (fun _ => 0) (fun _ => none) (fiveThreads 72) _ (by decide) rfl⟩

set_option maxRecDepth 1024 in
/-- The fifth thread waits at the open barrier. -/
theorem barrier_leaves_behind : ∃ k : Kernel BarrierCode BarrierData,
    Along (step barrier) (fun k a => k.ForkOnce a ∧ OutsideStart barrierGuarded.reserved a)
      (init (fun _ => 0) (fun _ => none) ⟨0, [], []⟩) (fiveThreads 88) ∧
    run (step barrier) (init (fun _ => 0) (fun _ => none) ⟨0, [], []⟩) (fiveThreads 88) =
      some k ∧ k.value (.lock conditionLock) ≠ 0 ∧ barrierSize ≤ k.shared.barrierCnt ∧
      (k.sched.queue (.cond barrierCondition)).items = [5] :=
  ⟨_, by decide, rfl, by decide, by decide, rfl⟩

end Kernel

end Nachos.Threads

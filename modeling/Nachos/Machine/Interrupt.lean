import Nachos.Threads.Timer

/-!
# Simulated time and the delivery of interrupts

The module is about `class Interrupt` of `machine/interrupt.cc` on its own,
with its list of pending interrupts and the tick counters of `stats`.

An interrupt handler may schedule further interrupts, turn interrupts off and
ask for a context switch.  What the handlers of one call of `OneTick`, `SetLevel`
or `Idle` do is an argument of that call, so a run may choose it freely.  A
failed `ASSERT` is `none`: `Schedule` with a time that is not in the future, and
`SetLevel(IntOn)` in a handler.  A handler that calls neither `SetLevel(IntOn)`
nor `Idle` never reaches `OneTick` again, so there is no recursion.

`OneTick` ends with a `Yield` when a handler has asked for it.  Other threads
then call the functions, and the status that the thread restores when it comes
back is kept in `yielding`.

Ticks are `Int`, without overflow.  `Agenda` is the part of the state that the
invariant is about.  `scheduled` and `invoked` are the history, and the serial
number of an interrupt stands for its address.
-/

namespace Nachos.Machine

open Threads Lib

/-- `enum IntType` of `interrupt.h`. -/
inductive IntType where
  | timerInt
  | diskInt
  | consoleWriteInt
  | consoleReadInt
  | networkSendInt
  | networkRecvInt
  deriving DecidableEq, Repr

/-- `class PendingInterrupt`.  `H` are the handlers. -/
structure PendingInterrupt (H : Type) where
  serial : Nat
  handler : H
  arg : Int
  when : Int
  type : IntType
  deriving DecidableEq, Repr

/-- The tick counters of `class Statistics`. -/
structure Statistics where
  totalTicks : Int
  idleTicks : Int
  systemTicks : Int
  userTicks : Int
  deriving DecidableEq, Repr

/-- The clock, the pending interrupts, and the history. -/
structure Agenda (H : Type) where
  stats : Statistics
  pending : NachosList (PendingInterrupt H)
  /-- The interrupts that have been scheduled. -/
  scheduled : List (PendingInterrupt H)
  /-- The interrupts whose handlers have been called, with the time of the
  call. -/
  invoked : List (PendingInterrupt H × Int)
  deriving DecidableEq, Repr

/-- `class Interrupt`. -/
structure Interrupt (H : Type) extends Agenda H where
  level : IntStatus
  inHandler : Bool
  yieldOnReturn : Bool
  status : MachineStatus
  /-- The statuses that the threads which yield in `OneTick` will restore. -/
  yielding : List MachineStatus
  /-- `Halt` has been called. -/
  halted : Bool
  deriving DecidableEq, Repr

/-- What a handler calls. -/
inductive HandlerCall (H : Type) where
  | schedule (handler : H) (arg fromNow : Int) (type : IntType)
  | setLevel (now : IntStatus)
  | yieldOnReturn

/-- What each handler does when it is called. -/
abbrev Handlers (H : Type) := PendingInterrupt H → List (HandlerCall H)

/-- The calls that a run is made of. -/
inductive InterruptAction (H : Type) where
  | schedule (handler : H) (arg fromNow : Int) (type : IntType)
  | oneTick (handle : Handlers H)
  | setLevel (now : IntStatus) (handle : Handlers H)
  | idle (handle : Handlers H)
  /-- `setStatus`, as `Run` and `RaiseException` of the machine call it. -/
  | setStatus (status : MachineStatus)
  /-- The `Yield` of an `OneTick` returns. -/
  | yieldReturns (n : Nat)

variable {H : Type}

/-! ## The functions -/

namespace Statistics

/-- The advance of `OneTick`. -/
def tick (st : Statistics) (status : MachineStatus) : Statistics :=
  if status = .systemMode then
    { st with
      totalTicks := st.totalTicks + SystemTick
      systemTicks := st.systemTicks + SystemTick }
  else
    { st with
      totalTicks := st.totalTicks + UserTick
      userTicks := st.userTicks + UserTick }

/-- The advance of `Idle` to the next interrupt. -/
def idleUntil (st : Statistics) (when : Int) : Statistics :=
  { st with
    idleTicks := st.idleTicks + (when - st.totalTicks)
    totalTicks := when }

end Statistics

namespace Agenda

/-- The interrupts that are due. -/
def dueCount (a : Agenda H) : Nat :=
  a.pending.countP fun e => e.key ≤ a.stats.totalTicks

def schedule (a : Agenda H) (handler : H) (arg fromNow : Int) (type : IntType) : Agenda H :=
  let when := a.stats.totalTicks + fromNow
  let toOccur := ⟨a.scheduled.length, handler, arg, when, type⟩
  { a with
    pending := a.pending.sortedInsert toOccur when
    scheduled := a.scheduled ++ [toOccur] }

end Agenda

namespace Interrupt

/-- `Interrupt::Schedule`. -/
def schedule (s : Interrupt H) (handler : H) (arg fromNow : Int) (type : IntType) :
    Option (Interrupt H) :=
  if 0 < fromNow then
    some { s with toAgenda := s.toAgenda.schedule handler arg fromNow type }
  else none

/-- One call of a handler.  `SetLevel` has its `ASSERT` on `inHandler`. -/
def handlerCall (s : Interrupt H) : HandlerCall H → Option (Interrupt H)
  | .schedule handler arg fromNow type => s.schedule handler arg fromNow type
  | .setLevel now => if now = .intOff then some { s with level := now } else none
  | .yieldOnReturn => some { s with yieldOnReturn := true }

/-- `Interrupt::CheckIfDue` up to the call of the handler: the interrupt that
occurs, or `none` for the result `FALSE`. -/
def removeDue (s : Interrupt H) (advanceClock : Bool) :
    Option (PendingInterrupt H) × Interrupt H :=
  match s.pending.sortedRemove with
  | (none, _) => (none, s)
  | (some (toOccur, when), rest) =>
      if advanceClock = false ∧ s.stats.totalTicks < when then
        -- not time yet, put it back
        (none, { s with pending := rest.sortedInsert toOccur when })
      else
        let stats := if s.stats.totalTicks < when then s.stats.idleUntil when else s.stats
        if s.status = .idleMode ∧ toOccur.type = .timerInt ∧ rest.isEmpty then
          (none, { s with stats := stats, pending := rest.sortedInsert toOccur when })
        else (some toOccur, { s with stats := stats, pending := rest })

/-- The call of the handler. -/
def invoke (s : Interrupt H) (handle : Handlers H) (toOccur : PendingInterrupt H) :
    Option (Interrupt H) :=
  let old := s.status
  (run handlerCall
    { s with
      invoked := s.invoked ++ [(toOccur, s.stats.totalTicks)]
      inHandler := true
      status := .systemMode } (handle toOccur)).map fun s =>
    { s with status := old, inHandler := false }

/-- `Interrupt::CheckIfDue`. -/
def checkIfDue (s : Interrupt H) (handle : Handlers H) (advanceClock : Bool) :
    Option (Bool × Interrupt H) :=
  if s.level = .intOff then
    match s.removeDue advanceClock with
    | (none, s) => some (false, s)
    | (some toOccur, s) => (s.invoke handle toOccur).map fun s => (true, s)
  else none

/-- `while (CheckIfDue(FALSE))`, at most `n` times. -/
def dueLoop (handle : Handlers H) : Nat → Interrupt H → Option (Interrupt H)
  | 0, _ => none
  | n + 1, s =>
      match s.checkIfDue handle false with
      | none => none
      | some (false, s) => some s
      | some (true, s) => dueLoop handle n s

/-- `while (CheckIfDue(FALSE))`.  Each round takes an interrupt that is due, and
the handlers add none. -/
def whileDue (s : Interrupt H) (handle : Handlers H) : Option (Interrupt H) :=
  dueLoop handle (s.dueCount + 1) s

/-- `Interrupt::OneTick`, up to its `Yield`. -/
def oneTick (s : Interrupt H) (handle : Handlers H) : Option (Interrupt H) :=
  let old := s.status
  (whileDue { s with stats := s.stats.tick s.status, level := .intOff } handle).map fun s =>
    if s.yieldOnReturn then
      { s with
        level := .intOn
        yieldOnReturn := false
        status := .systemMode
        yielding := s.yielding ++ [old] }
    else { s with level := .intOn }

/-- `Interrupt::SetLevel`. -/
def setLevel (s : Interrupt H) (now : IntStatus) (handle : Handlers H) : Option (Interrupt H) :=
  if now = .intOff ∨ s.inHandler = false then
    if now = .intOn ∧ s.level = .intOff then oneTick { s with level := now } handle
    else some { s with level := now }
  else none

/-- `Interrupt::Idle`. -/
def idle (s : Interrupt H) (handle : Handlers H) : Option (Interrupt H) :=
  match checkIfDue { s with status := .idleMode } handle true with
  | none => none
  | some (true, s) =>
      (s.whileDue handle).map fun s => { s with yieldOnReturn := false, status := .systemMode }
  | some (false, s) => some { s with halted := true }

/-- One call of the run. -/
def step (s : Interrupt H) (a : InterruptAction H) : Option (Interrupt H) :=
  if s.halted then none
  else
    match a with
    | .schedule handler arg fromNow type => s.schedule handler arg fromNow type
    | .oneTick handle => s.oneTick handle
    | .setLevel now handle => s.setLevel now handle
    | .idle handle => s.idle handle
    | .setStatus status => if status = .idleMode then none else some { s with status := status }
    | .yieldReturns n =>
        match s.yielding[n]? with
        | none => none
        | some old => some { s with status := old, yielding := s.yielding.eraseIdx n }

/-- `Interrupt::Interrupt`, with the counters of `Statistics::Statistics`. -/
def init : Interrupt H where
  stats := ⟨0, 0, 0, 0⟩
  pending := []
  scheduled := []
  invoked := []
  level := .intOff
  inHandler := false
  yieldOnReturn := false
  status := .systemMode
  yielding := []
  halted := false

end Interrupt

/-! ## The agenda -/

namespace Statistics

/-- The total is the sum of the parts. -/
def Balanced (st : Statistics) : Prop :=
  st.totalTicks = st.idleTicks + st.systemTicks + st.userTicks

theorem Balanced.tick {st : Statistics} (h : st.Balanced) (status : MachineStatus) :
    (st.tick status).Balanced := by
  unfold Balanced at h ⊢
  unfold Statistics.tick
  split <;> simp only <;> omega

theorem Balanced.idleUntil {st : Statistics} (h : st.Balanced) (when : Int) :
    (st.idleUntil when).Balanced := by
  unfold Balanced at h ⊢
  simp only [Statistics.idleUntil]
  omega

theorem totalTicks_tick (st : Statistics) (status : MachineStatus) :
    st.totalTicks < (st.tick status).totalTicks := by
  unfold Statistics.tick
  split
  · show st.totalTicks < st.totalTicks + SystemTick
    have hpos : 0 < SystemTick := by decide
    omega
  · show st.totalTicks < st.totalTicks + UserTick
    have hpos : 0 < UserTick := by decide
    omega

end Statistics

namespace Agenda

/-- The invariant of the clock and the interrupts. -/
structure Inv (a : Agenda H) : Prop where
  balanced : a.stats.Balanced
  keys : ∀ e ∈ a.pending, e.key = e.item.when
  sorted : a.pending.SortedBy fun _ _ => True
  /-- What is pending comes after what has been delivered. -/
  after : ∀ x ∈ a.invoked, ∀ e ∈ a.pending, x.1.when ≤ e.key
  due : ∀ x ∈ a.invoked, x.1.when ≤ x.2 ∧ x.2 ≤ a.stats.totalTicks
  ordered : a.invoked.Pairwise fun x y => x.1.when ≤ y.1.when
  accounted : a.scheduled.Perm (a.invoked.map Prod.fst ++ a.pending.items)
  serials : a.scheduled.map PendingInterrupt.serial = List.range a.scheduled.length

variable {a : Agenda H}

/-- Time passes. -/
theorem Inv.advance (h : a.Inv) {st : Statistics} (hst : st.Balanced)
    (hle : a.stats.totalTicks ≤ st.totalTicks) : ({ a with stats := st } : Agenda H).Inv :=
  { h with
    balanced := hst
    due x hx := ⟨(h.due x hx).1, (h.due x hx).2.trans hle⟩ }

theorem Inv.schedule (h : a.Inv) {handler : H} {arg fromNow : Int} {type : IntType}
    (hpos : 0 < fromNow) : (a.schedule handler arg fromNow type).Inv where
  balanced := h.balanced
  keys e he := by
    rcases NachosList.mem_sortedInsert.mp he with rfl | he
    · rfl
    · exact h.keys e he
  sorted := h.sorted.sortedInsert fun _ _ => trivial
  after x hx e he := by
    rcases NachosList.mem_sortedInsert.mp he with rfl | he
    · have hdue := h.due x hx
      show x.1.when ≤ a.stats.totalTicks + fromNow
      omega
    · exact h.after x hx e he
  due := h.due
  ordered := h.ordered
  accounted := by
    refine (List.perm_append_singleton _ _).trans ?_
    refine List.Perm.trans ?_
      ((NachosList.items_sortedInsert_perm _ _ _).symm.append_left (a.invoked.map Prod.fst))
    exact (h.accounted.cons _).trans List.perm_middle.symm
  serials := by
    show (a.scheduled ++ [_]).map _ = List.range (a.scheduled ++ [_]).length
    rw [List.map_append, h.serials, List.length_append, List.length_singleton,
      List.range_succ]
    rfl

/-- A handler adds nothing that is due. -/
theorem dueCount_schedule {handler : H} {arg fromNow : Int} {type : IntType}
    (hpos : 0 < fromNow) : (a.schedule handler arg fromNow type).dueCount = a.dueCount := by
  show (a.pending.sortedInsert _ _).countP (fun e => e.key ≤ a.stats.totalTicks) = _
  rw [(NachosList.sortedInsert_perm _ _ _).countP_eq, List.countP_cons_of_neg]
  · rfl
  · show ¬decide (a.stats.totalTicks + fromNow ≤ a.stats.totalTicks) = true
    rw [decide_eq_true_eq]
    omega

variable {e : ListElement (PendingInterrupt H)} {es : NachosList (PendingInterrupt H)}

/-- The first interrupt is put back. -/
theorem Inv.requeue (h : a.Inv) (hpending : a.pending = e :: es) :
    ({ a with pending := es.sortedInsert e.item e.key } : Agenda H).Inv := by
  have hmem : ∀ f, f ∈ es.sortedInsert e.item e.key → f ∈ a.pending := by
    intro f hf
    rw [hpending, List.mem_cons]
    exact NachosList.mem_sortedInsert.mp hf
  have hsorted := h.sorted
  rw [hpending] at hsorted
  exact
    { h with
      keys := fun f hf => h.keys f (hmem f hf)
      sorted := NachosList.SortedBy.sortedInsert (List.pairwise_cons.mp hsorted).2
        fun _ _ => trivial
      after := fun x hx f hf => h.after x hx f (hmem f hf)
      accounted := by
        have hperm := h.accounted
        rw [hpending] at hperm
        exact hperm.trans
          ((NachosList.items_sortedInsert_perm _ _ _).symm.append_left (a.invoked.map Prod.fst)) }

/-- The first interrupt is due, and is delivered. -/
theorem Inv.deliver (h : a.Inv) (hpending : a.pending = e :: es)
    (hdue : e.key ≤ a.stats.totalTicks) :
    ({ a with
        pending := es
        invoked := a.invoked ++ [(e.item, a.stats.totalTicks)] } : Agenda H).Inv := by
  have hwhen : e.key = e.item.when := h.keys e (by rw [hpending]; exact List.mem_cons_self)
  have hmem : ∀ f ∈ es, f ∈ a.pending := by
    intro f hf
    rw [hpending]
    exact List.mem_cons_of_mem e hf
  have hsorted := h.sorted
  rw [hpending] at hsorted
  obtain ⟨hhead, htail⟩ := List.pairwise_cons.mp hsorted
  exact
    { h with
      keys := fun f hf => h.keys f (hmem f hf)
      sorted := htail
      after := fun x hx f hf => by
        rcases List.mem_append.mp hx with hx | hx
        · exact h.after x hx f (hmem f hf)
        · rw [List.mem_singleton.mp hx, ← hwhen]
          rcases hhead f hf with hlt | ⟨heq, _⟩
          · exact hlt.le
          · exact heq.le
      due := fun x hx => by
        rcases List.mem_append.mp hx with hx | hx
        · exact h.due x hx
        · rw [List.mem_singleton.mp hx, ← hwhen]
          exact ⟨hdue, le_rfl⟩
      ordered := by
        refine List.pairwise_append.mpr ⟨h.ordered, List.pairwise_singleton _ _, ?_⟩
        intro x hx y hy
        rw [List.mem_singleton.mp hy, ← hwhen]
        exact h.after x hx e (by rw [hpending]; exact List.mem_cons_self)
      accounted := by
        have hperm := h.accounted
        rw [hpending, NachosList.items_cons] at hperm
        rw [List.map_append, List.append_assoc]
        exact hperm }

/-- When the first interrupt is not due, none is. -/
theorem Inv.none_due (h : a.Inv) (hpending : a.pending = e :: es)
    (hlater : a.stats.totalTicks < e.key) : ∀ f ∈ a.pending, a.stats.totalTicks < f.key := by
  have hsorted := h.sorted
  rw [hpending] at hsorted ⊢
  intro f hf
  rcases List.mem_cons.mp hf with rfl | hf
  · exact hlater
  · rcases (List.pairwise_cons.mp hsorted).1 f hf with hlt | ⟨heq, _⟩ <;> omega

end Agenda

/-! ## The handlers -/

namespace HandlerCall

/-- The `ASSERT`s of the call hold. -/
def Valid : HandlerCall H → Prop
  | .schedule _ _ fromNow _ => 0 < fromNow
  | .setLevel now => now = .intOff
  | .yieldOnReturn => True

end HandlerCall

namespace Interrupt

variable {s s' : Interrupt H} {handle : Handlers H} {p : PendingInterrupt H} {advanceClock : Bool}

/-- What a handler does to the state: it adds interrupts, and none of them is
due. -/
structure Handled (s s' : Interrupt H) : Prop where
  inv : s.toAgenda.Inv → s'.toAgenda.Inv
  stats : s'.stats = s.stats
  dueCount : s'.dueCount = s.dueCount
  level : s.level = .intOff → s'.level = .intOff
  yielding : s'.yielding = s.yielding
  halted : s'.halted = s.halted

theorem Handled.refl (s : Interrupt H) : Handled s s :=
  ⟨id, rfl, rfl, id, rfl, rfl⟩

theorem Handled.trans {s'' : Interrupt H} (h : Handled s s') (h' : Handled s' s'') :
    Handled s s'' where
  inv hinv := h'.inv (h.inv hinv)
  stats := h'.stats.trans h.stats
  dueCount := h'.dueCount.trans h.dueCount
  level hlevel := h'.level (h.level hlevel)
  yielding := h'.yielding.trans h.yielding
  halted := h'.halted.trans h.halted

/-- What a call of a handler can do. -/
theorem handlerCall_cases {c : HandlerCall H} (h : s.handlerCall c = some s') :
    (∃ handler arg fromNow type, 0 < fromNow ∧
        s' = { s with toAgenda := s.toAgenda.schedule handler arg fromNow type }) ∨
      s' = { s with level := .intOff } ∨ s' = { s with yieldOnReturn := true } := by
  cases c with
  | schedule handler arg fromNow type =>
      simp only [handlerCall, schedule] at h
      split at h
      · rename_i hpos
        cases h
        exact Or.inl ⟨handler, arg, fromNow, type, hpos, rfl⟩
      · cases h
  | setLevel now =>
      simp only [handlerCall] at h
      split at h
      · rename_i hoff
        cases h
        rw [hoff]
        exact Or.inr (Or.inl rfl)
      · cases h
  | yieldOnReturn =>
      cases h
      exact Or.inr (Or.inr rfl)

theorem handlerCall_handled {c : HandlerCall H} (h : s.handlerCall c = some s') :
    Handled s s' := by
  rcases handlerCall_cases h with ⟨_, _, _, _, hpos, rfl⟩ | rfl | rfl
  · exact ⟨fun hinv => hinv.schedule hpos, rfl, Agenda.dueCount_schedule hpos, id, rfl, rfl⟩
  · exact ⟨id, rfl, rfl, fun _ => rfl, rfl, rfl⟩
  · exact ⟨id, rfl, rfl, id, rfl, rfl⟩

/-- A whole handler. -/
theorem run_handled {cs : List (HandlerCall H)} (h : run handlerCall s cs = some s') :
    Handled s s' :=
  run_preserves (I := Handled s) (fun _ _ _ hs hcall => hs.trans (handlerCall_handled hcall))
    (.refl s) h

theorem run_returns {cs : List (HandlerCall H)} (h : ∀ c ∈ cs, c.Valid) (s : Interrupt H) :
    ∃ s', run handlerCall s cs = some s' := by
  induction cs generalizing s with
  | nil => exact ⟨s, rfl⟩
  | cons c cs ih =>
      have hvalid := h c List.mem_cons_self
      obtain ⟨m, hm⟩ : ∃ m, s.handlerCall c = some m := by
        cases c with
        | schedule handler arg fromNow type | setLevel now => exact ⟨_, if_pos hvalid⟩
        | yieldOnReturn => exact ⟨_, rfl⟩
      obtain ⟨s', hs'⟩ := ih (fun d hd => h d (List.mem_cons_of_mem c hd)) m
      exact ⟨s', run_cons_eq_some.mpr ⟨m, hm, hs'⟩⟩

/-! ## One round of the delivery -/

/-- The clock after `CheckIfDue` has taken an interrupt for the time `when`. -/
def clockAt (s : Interrupt H) (when : Int) : Statistics :=
  if s.stats.totalTicks < when then s.stats.idleUntil when else s.stats

/-- What `removeDue` can do. -/
inductive Removes (s : Interrupt H) (advanceClock : Bool) :
    Option (PendingInterrupt H) → Interrupt H → Prop where
  | empty (hpending : s.pending = []) : Removes s advanceClock none s
  /-- It is not time yet, and the interrupt is put back. -/
  | later {e es} (hpending : s.pending = e :: es) (hfalse : advanceClock = false)
      (hlater : s.stats.totalTicks < e.key) :
      Removes s advanceClock none { s with pending := NachosList.sortedInsert es e.item e.key }
  /-- The machine is idle, and only the timer is left. -/
  | onlyTimer {e} (hpending : s.pending = [e]) (hidle : s.status = .idleMode)
      (hnow : advanceClock = false → e.key ≤ s.stats.totalTicks) :
      Removes s advanceClock none { s with stats := s.clockAt e.key, pending := [e] }
  | occurs {e es} (hpending : s.pending = e :: es)
      (hnow : advanceClock = false → e.key ≤ s.stats.totalTicks) :
      Removes s advanceClock (some e.item) { s with stats := s.clockAt e.key, pending := es }

theorem removes_of_removeDue {p : Option (PendingInterrupt H)}
    (hr : s.removeDue advanceClock = (p, s')) : Removes s advanceClock p s' := by
  unfold removeDue at hr
  cases hpending : s.pending with
  | nil =>
      rw [hpending] at hr
      cases hr
      exact .empty hpending
  | cons e es =>
      rw [hpending] at hr
      simp only [NachosList.sortedRemove] at hr
      split at hr
      · rename_i hlater
        cases hr
        exact .later hpending hlater.1 hlater.2
      · rename_i hnot
        have hnow : advanceClock = false → e.key ≤ s.stats.totalTicks :=
          fun hfalse => not_lt.mp fun hlt => hnot ⟨hfalse, hlt⟩
        split at hr
        · rename_i hidle
          cases hr
          have hnil : es = [] := List.isEmpty_iff.mp hidle.2.2
          subst hnil
          exact .onlyTimer hpending hidle.1 hnow
        · cases hr
          exact .occurs hpending hnow

theorem clockAt_of_le {when : Int} (h : when ≤ s.stats.totalTicks) : s.clockAt when = s.stats :=
  if_neg (not_lt.mpr h)

/-- The clock is not behind the interrupt, and has not gone back. -/
theorem inv_clockAt (h : s.toAgenda.Inv) (when : Int) :
    ({ s.toAgenda with stats := s.clockAt when } : Agenda H).Inv ∧
      s.stats.totalTicks ≤ (s.clockAt when).totalTicks ∧ when ≤ (s.clockAt when).totalTicks := by
  unfold clockAt
  split
  · rename_i hlt
    exact ⟨h.advance (h.balanced.idleUntil when) hlt.le, hlt.le, le_rfl⟩
  · rename_i hle
    exact ⟨h, le_rfl, not_lt.mp hle⟩

/-- The result `FALSE`: the interrupt is put back.  Without the advance of the
clock, and unless the machine is idle, nothing is due. -/
theorem removeDue_none (h : s.toAgenda.Inv) (hr : s.removeDue advanceClock = (none, s')) :
    ∃ st pd, s' = { s with stats := st, pending := pd } ∧ s'.toAgenda.Inv ∧
      s.stats.totalTicks ≤ st.totalTicks ∧
      (advanceClock = false → st = s.stats ∧
        (s.status ≠ .idleMode → ∀ f ∈ pd, s.stats.totalTicks < f.key)) := by
  cases removes_of_removeDue hr with
  | empty hpending =>
      exact ⟨s.stats, s.pending, rfl, h, le_rfl, fun _ => ⟨rfl, by simp [hpending]⟩⟩
  | later hpending hfalse hlater =>
      refine ⟨s.stats, _, rfl, h.requeue hpending, le_rfl, fun _ => ⟨rfl, fun _ f hf => ?_⟩⟩
      refine h.none_due hpending hlater f ?_
      rw [hpending, List.mem_cons]
      exact NachosList.mem_sortedInsert.mp hf
  | @onlyTimer e hpending hidle hnow =>
      obtain ⟨hinv, hle, _⟩ := inv_clockAt h e.key
      exact ⟨_, _, rfl, hinv.requeue hpending, hle,
        fun hfalse => ⟨clockAt_of_le (hnow hfalse), fun hstatus => absurd hidle hstatus⟩⟩

/-- The interrupt that occurs is due, and is no longer pending. -/
theorem removeDue_some (h : s.toAgenda.Inv) (hr : s.removeDue advanceClock = (some p, s')) :
    ∃ st pd, s' = { s with stats := st, pending := pd } ∧
      ({ s'.toAgenda with invoked := s'.invoked ++ [(p, st.totalTicks)] } : Agenda H).Inv ∧
      s.stats.totalTicks ≤ st.totalTicks ∧
      (advanceClock = false → st = s.stats ∧ s'.dueCount + 1 = s.dueCount) := by
  cases removes_of_removeDue hr with
  | @occurs e es hpending hnow =>
      obtain ⟨hinv, hle, hdue⟩ := inv_clockAt h e.key
      refine ⟨_, _, rfl, hinv.deliver hpending hdue, hle, fun hfalse => ?_⟩
      have hsame := clockAt_of_le (hnow hfalse)
      refine ⟨hsame, ?_⟩
      show es.countP (fun f => f.key ≤ (s.clockAt e.key).totalTicks) + 1 = s.pending.countP _
      rw [hsame, hpending, List.countP_cons_of_pos (by simpa using hnow hfalse)]

theorem checkIfDue_eq_false : s.checkIfDue handle advanceClock = some (false, s') ↔
    s.level = .intOff ∧ s.removeDue advanceClock = (none, s') := by
  unfold checkIfDue
  by_cases hoff : s.level = .intOff
  · rw [if_pos hoff]
    rcases s.removeDue advanceClock with ⟨_ | p, m⟩
    · simp [hoff]
    · simp
  · rw [if_neg hoff]
    simp [hoff]

/-- An interrupt occurs, and its handler has been called. -/
theorem checkIfDue_eq_true (hc : s.checkIfDue handle advanceClock = some (true, s')) :
    s.level = .intOff ∧ ∃ p m r, s.removeDue advanceClock = (some p, m) ∧
      run handlerCall
        { m with
          invoked := m.invoked ++ [(p, m.stats.totalTicks)]
          inHandler := true
          status := .systemMode } (handle p) = some r ∧
      s' = { r with status := m.status, inHandler := false } := by
  unfold checkIfDue at hc
  split at hc
  · rename_i hoff
    split at hc
    · cases hc
    · rename_i p m hr
      obtain ⟨m', hm', hpair⟩ := Option.map_eq_some_iff.mp hc
      cases hpair
      obtain ⟨r, hrun, rfl⟩ := Option.map_eq_some_iff.mp hm'
      exact ⟨hoff, p, m, r, hr, hrun, rfl⟩
  · cases hc

/-- What calls of handlers do to the state. -/
structure Delivers (s s' : Interrupt H) : Prop where
  inv : s'.toAgenda.Inv
  le : s.stats.totalTicks ≤ s'.stats.totalTicks
  level : s.level = .intOff → s'.level = .intOff
  status : s'.status = s.status
  yielding : s'.yielding = s.yielding
  halted : s'.halted = s.halted

theorem Delivers.trans {s'' : Interrupt H} (h : Delivers s s') (h' : Delivers s' s'') :
    Delivers s s'' where
  inv := h'.inv
  le := h.le.trans h'.le
  level hlevel := h'.level (h.level hlevel)
  status := h'.status.trans h.status
  yielding := h'.yielding.trans h.yielding
  halted := h'.halted.trans h.halted

theorem checkIfDue_false (h : s.toAgenda.Inv)
    (hc : s.checkIfDue handle advanceClock = some (false, s')) :
    Delivers s s' ∧ (advanceClock = false → s'.stats = s.stats ∧
      (s.status ≠ .idleMode → ∀ f ∈ s'.pending, s.stats.totalTicks < f.key)) := by
  obtain ⟨st, pd, rfl, hinv, hle, hdue⟩ := removeDue_none h (checkIfDue_eq_false.mp hc).2
  exact ⟨⟨hinv, hle, id, rfl, rfl, rfl⟩, hdue⟩

theorem checkIfDue_true (h : s.toAgenda.Inv)
    (hc : s.checkIfDue handle advanceClock = some (true, s')) :
    Delivers s s' ∧ (advanceClock = false → s'.stats = s.stats ∧ s'.dueCount + 1 = s.dueCount) := by
  obtain ⟨_, p, m, r, hr, hrun, rfl⟩ := checkIfDue_eq_true hc
  obtain ⟨st, pd, rfl, hinv, hle, hdue⟩ := removeDue_some h hr
  have hhandled := run_handled hrun
  refine ⟨⟨hhandled.inv hinv, ?_, hhandled.level, rfl, hhandled.yielding, hhandled.halted⟩,
    fun hfalse => ?_⟩
  · show s.stats.totalTicks ≤ r.stats.totalTicks
    rw [hhandled.stats]
    exact hle
  · obtain ⟨hst, hcount⟩ := hdue hfalse
    refine ⟨hhandled.stats.trans hst, ?_⟩
    rw [← hcount]
    exact congrArg (· + 1) hhandled.dueCount

theorem checkIfDue_returns (hoff : s.level = .intOff) (hvalid : ∀ p, ∀ c ∈ handle p, c.Valid)
    (advanceClock : Bool) : ∃ r, s.checkIfDue handle advanceClock = some r := by
  unfold checkIfDue
  rw [if_pos hoff]
  split
  · exact ⟨_, rfl⟩
  · rename_i p m hr
    obtain ⟨r, hrun⟩ := run_returns (hvalid p)
      { m with
        invoked := m.invoked ++ [(p, m.stats.totalTicks)]
        inHandler := true
        status := .systemMode }
    exact ⟨_, by rw [invoke, hrun]; rfl⟩

/-! ## The delivery loop -/

/-- The loop delivers, at one time, and leaves nothing that is due. -/
theorem dueLoop_spec {n : Nat} (h : s.toAgenda.Inv) (hl : dueLoop handle n s = some s') :
    Delivers s s' ∧ s'.stats = s.stats ∧
      (s.status ≠ .idleMode → ∀ f ∈ s'.pending, s'.stats.totalTicks < f.key) := by
  -- the induction is on the number of rounds; each of them keeps the invariant
  induction n generalizing s with
  | zero => cases hl
  | succ n ih =>
      simp only [dueLoop] at hl
      split at hl
      · cases hl
      · rename_i hc
        cases hl
        obtain ⟨hdelivers, hrest⟩ := checkIfDue_false h hc
        obtain ⟨hstats, hnone⟩ := hrest rfl
        refine ⟨hdelivers, hstats, fun hstatus => ?_⟩
        rw [hstats]
        exact hnone hstatus
      · rename_i m hc
        obtain ⟨hdelivers, hrest⟩ := checkIfDue_true h hc
        obtain ⟨hlater, hstats, hnone⟩ := ih hdelivers.inv hl
        refine ⟨hdelivers.trans hlater, hstats.trans (hrest rfl).1, fun hstatus => hnone ?_⟩
        rw [hdelivers.status]
        exact hstatus

/-- The loop ends, since each round takes one of the interrupts that are due. -/
theorem dueLoop_returns {n : Nat} (h : s.toAgenda.Inv) (hoff : s.level = .intOff)
    (hvalid : ∀ p, ∀ c ∈ handle p, c.Valid) (hn : s.dueCount < n) :
    ∃ s', dueLoop handle n s = some s' := by
  induction n generalizing s with
  | zero => omega
  | succ n ih =>
      obtain ⟨⟨b, m⟩, hm⟩ := checkIfDue_returns hoff hvalid false
      simp only [dueLoop, hm]
      cases b with
      | false => exact ⟨m, rfl⟩
      | true =>
          obtain ⟨hdelivers, hrest⟩ := checkIfDue_true h hm
          have hcount := (hrest rfl).2
          exact ih hdelivers.inv (hdelivers.level hoff) (by omega)

/-! ## The calls -/

/-- The invariant of the runs.  The machine is idle only inside `Idle`. -/
structure Inv (s : Interrupt H) : Prop where
  agenda : s.toAgenda.Inv
  status : s.halted = false → s.status ≠ .idleMode
  yielding : ∀ st ∈ s.yielding, st ≠ .idleMode

/-- The clock has advanced, and the loop of `OneTick` begins. -/
theorem Inv.ticked (h : s.Inv) :
    ({ s.toAgenda with stats := s.stats.tick s.status } : Agenda H).Inv :=
  h.agenda.advance (h.agenda.balanced.tick s.status) (s.stats.totalTicks_tick s.status).le

theorem oneTick_spec (h : s.Inv) (hrunning : s.halted = false) (ht : s.oneTick handle = some s') :
    s'.Inv ∧ s.stats.totalTicks ≤ s'.stats.totalTicks ∧
      ∀ f ∈ s'.pending, s'.stats.totalTicks < f.key := by
  obtain ⟨m, hm, hs'⟩ := Option.map_eq_some_iff.mp ht
  obtain ⟨hdelivers, hstats, hnone⟩ := dueLoop_spec h.ticked hm
  have hstatus := h.status hrunning
  have hle : s.stats.totalTicks ≤ m.stats.totalTicks := by
    rw [hstats]
    exact (s.stats.totalTicks_tick s.status).le
  have hyielding : ∀ st ∈ m.yielding, st ≠ .idleMode := by
    rw [hdelivers.yielding]
    exact h.yielding
  split at hs'
  · cases hs'
    refine ⟨⟨hdelivers.inv, fun _ => by simp, fun st hst => ?_⟩, hle, hnone hstatus⟩
    rcases List.mem_append.mp hst with hst | hst
    · exact hyielding st hst
    · rw [List.mem_singleton.mp hst]
      exact hstatus
  · cases hs'
    refine ⟨⟨hdelivers.inv, fun _ => ?_, hyielding⟩, hle, hnone hstatus⟩
    show m.status ≠ .idleMode
    rw [hdelivers.status]
    exact hstatus

theorem oneTick_returns (h : s.Inv) (hvalid : ∀ p, ∀ c ∈ handle p, c.Valid) :
    ∃ s', s.oneTick handle = some s' := by
  obtain ⟨m, hm⟩ := dueLoop_returns
    (s := { s with stats := s.stats.tick s.status, level := .intOff }) h.ticked rfl hvalid
    (Nat.lt_succ_self _)
  exact ⟨_, by rw [oneTick, whileDue, hm]; rfl⟩

theorem idle_spec (h : s.Inv) (hi : s.idle handle = some s') :
    s'.Inv ∧ s.stats.totalTicks ≤ s'.stats.totalTicks := by
  simp only [idle] at hi
  split at hi
  · cases hi
  · rename_i m hc
    obtain ⟨r, hr, hs'⟩ := Option.map_eq_some_iff.mp hi
    cases hs'
    obtain ⟨hdelivers, _⟩ := checkIfDue_true (s := { s with status := .idleMode }) h.agenda hc
    have hlater := hdelivers.trans (dueLoop_spec hdelivers.inv hr).1
    refine ⟨⟨hlater.inv, fun _ => by simp, ?_⟩, hlater.le⟩
    show ∀ st ∈ r.yielding, st ≠ .idleMode
    rw [hlater.yielding]
    exact h.yielding
  · rename_i m hc
    cases hi
    obtain ⟨hdelivers, _⟩ := checkIfDue_false (s := { s with status := .idleMode }) h.agenda hc
    refine ⟨⟨hdelivers.inv, fun hrunning => ?_, ?_⟩, hdelivers.le⟩
    · cases hrunning
    · show ∀ st ∈ m.yielding, st ≠ .idleMode
      rw [hdelivers.yielding]
      exact h.yielding

/-- One call keeps the invariant, and time does not run back. -/
theorem step_spec {a : InterruptAction H} (h : s.Inv) (hs : s.step a = some s') :
    s'.Inv ∧ s.stats.totalTicks ≤ s'.stats.totalTicks := by
  unfold step at hs
  split at hs
  · cases hs
  · rename_i hhalted
    have hrunning : s.halted = false := eq_false_of_ne_true hhalted
    cases a with
    | schedule handler arg fromNow type =>
        simp only [schedule] at hs
        split at hs
        · rename_i hpos
          cases hs
          exact ⟨⟨h.agenda.schedule hpos, h.status, h.yielding⟩, le_rfl⟩
        · cases hs
    | oneTick handle =>
        obtain ⟨hinv, hle, _⟩ := oneTick_spec h hrunning hs
        exact ⟨hinv, hle⟩
    | setLevel now handle =>
        simp only [setLevel] at hs
        split at hs
        · split at hs
          · have hset : ({ s with level := now } : Interrupt H).Inv :=
              ⟨h.agenda, h.status, h.yielding⟩
            obtain ⟨hinv, hle, _⟩ := oneTick_spec hset hrunning hs
            exact ⟨hinv, hle⟩
          · cases hs
            exact ⟨⟨h.agenda, h.status, h.yielding⟩, le_rfl⟩
        · cases hs
    | idle handle => exact idle_spec h hs
    | setStatus status =>
        simp only at hs
        split at hs
        · cases hs
        · rename_i hstatus
          cases hs
          exact ⟨⟨h.agenda, fun _ => hstatus, h.yielding⟩, le_rfl⟩
    | yieldReturns n =>
        simp only at hs
        split at hs
        · cases hs
        · rename_i old hold
          cases hs
          refine ⟨⟨h.agenda, fun _ => h.yielding old (List.mem_of_getElem? hold), ?_⟩, le_rfl⟩
          exact fun st hst => h.yielding st (List.mem_of_mem_eraseIdx hst)

theorem run_spec {as : List (InterruptAction H)} (h : s.Inv) (hrun : run step s as = some s') :
    s'.Inv ∧ s.stats.totalTicks ≤ s'.stats.totalTicks := by
  refine run_preserves (I := fun m => m.Inv ∧ s.stats.totalTicks ≤ m.stats.totalTicks)
    (fun m a m' hm hstep => ?_) ⟨h, le_rfl⟩ hrun
  obtain ⟨hinv, hle⟩ := step_spec hm.1 hstep
  exact ⟨hinv, hm.2.trans hle⟩

theorem inv_init : (init : Interrupt H).Inv where
  agenda :=
    { balanced := rfl
      keys := nofun
      sorted := List.Pairwise.nil
      after := nofun
      due := nofun
      ordered := List.Pairwise.nil
      accounted := List.Perm.nil
      serials := rfl }
  status _ := nofun
  yielding := nofun

/-! ## What holds in every run -/

/-- The clock is right, and every interrupt is delivered once, in order and not
too early. -/
structure Delivered (s : Interrupt H) : Prop where
  clock : s.stats.totalTicks = s.stats.idleTicks + s.stats.systemTicks + s.stats.userTicks
  monotone : ∀ as s', run step s as = some s' → s.stats.totalTicks ≤ s'.stats.totalTicks
  sorted : s.pending.items.Pairwise fun p q => p.when ≤ q.when
  due : ∀ x ∈ s.invoked, x.1.when ≤ x.2
  once : (s.invoked.map Prod.fst).Nodup
  ordered : (s.invoked.map Prod.fst).Pairwise fun p q => p.when ≤ q.when
  /-- What has been scheduled is pending, or has been invoked, and not both. -/
  accounted : s.scheduled.Perm (s.invoked.map Prod.fst ++ s.pending.items)
  /-- Nothing is due when the loop of `OneTick` has ended. -/
  quiet : s.halted = false → ∀ handle s', s.oneTick handle = some s' →
    ∀ p ∈ s'.pending.items, s'.stats.totalTicks < p.when
  /-- The loop ends, unless a handler fails an `ASSERT`. -/
  ends : ∀ handle : Handlers H, (∀ p, ∀ c ∈ handle p, c.Valid) → ∃ s', s.oneTick handle = some s'

theorem delivered_of_inv (h : s.Inv) : s.Delivered where
  clock := h.agenda.balanced
  monotone as s' hrun := (run_spec h hrun).2
  sorted := by
    refine List.pairwise_map.mpr (h.agenda.sorted.imp_of_mem ?_)
    intro e f he hf hef
    rw [← h.agenda.keys e he, ← h.agenda.keys f hf]
    rcases hef with hlt | ⟨heq, _⟩
    · exact hlt.le
    · exact heq.le
  due x hx := (h.agenda.due x hx).1
  once := by
    have hserials : (s.scheduled.map PendingInterrupt.serial).Nodup := by
      rw [h.agenda.serials]
      exact List.nodup_range
    have hall := h.agenda.accounted.nodup_iff.mp hserials.of_map
    exact (List.nodup_append.mp hall).1
  ordered := List.pairwise_map.mpr h.agenda.ordered
  accounted := h.agenda.accounted
  quiet hrunning handle s' ht p hp := by
    obtain ⟨hinv, _, hnone⟩ := oneTick_spec h hrunning ht
    obtain ⟨e, he, rfl⟩ := List.mem_map.mp hp
    rw [← hinv.agenda.keys e he]
    exact hnone e he
  ends _ hvalid := oneTick_returns h hvalid

/-- Every run of `Schedule`, `OneTick`, `SetLevel` and `Idle`, whatever the
handlers schedule. -/
theorem interrupts_delivered (as : List (InterruptAction H)) (s : Interrupt H)
    (hrun : run step init as = some s) : s.Delivered :=
  delivered_of_inv (run_spec inv_init hrun).1

/-- The timer starts itself again each time it expires, and the disk is used
once more when it has finished. -/
def timerAndDisk (p : PendingInterrupt Unit) : List (HandlerCall Unit) :=
  match p.type with
  | .timerInt => [.schedule () 0 TimerTicks .timerInt, .yieldOnReturn]
  | .diskInt => if p.serial < 2 then [.schedule () 0 5 .diskInt] else []
  | _ => []

/-- Two ticks and two idle periods. -/
def ticksAndIdle : List (InterruptAction Unit) :=
  [.schedule () 0 TimerTicks .timerInt, .schedule () 0 15 .diskInt,
    .setLevel .intOn timerAndDisk, .oneTick timerAndDisk, .setLevel .intOff timerAndDisk,
    .idle timerAndDisk, .schedule () 0 75 .consoleReadInt, .idle timerAndDisk]

/-- The disk interrupts a tick, then it ends an idle period, and the timer and the
console end the next one. -/
theorem interrupts_delivered_disk : ∃ s : Interrupt Unit,
    run step init ticksAndIdle = some s ∧
      s.invoked.map (fun x => (x.1.serial, x.2)) = [(1, 20), (2, 25), (0, 100), (3, 100)] ∧
      s.Delivered :=
  ⟨_, rfl, rfl, interrupts_delivered ticksAndIdle _ rfl⟩

end Interrupt

end Nachos.Machine

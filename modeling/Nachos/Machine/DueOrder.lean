import Nachos.Machine.Interrupt

/-!
# The order of simultaneous interrupts

`CheckIfDue` takes the first pending interrupt off the list to look at its time.
If it is not time yet, `SortedInsert` puts it back, and that is behind the
interrupts with the same time.  So a check that fires nothing changes the list,
if two interrupts at its head share a time that has not come.  `TiedEarly` is this
state, and `checksQuietly_iff` says that it is the only one in which such a check
leaves a trace.

`checks` are the states in which a call of a run checks for due interrupts.
`Queued` says of each time that the interrupts scheduled for it are those that
have been invoked, and then those that are pending, in this order.  It is kept as
long as no check finds two interrupts tied, and then simultaneous interrupts are
delivered in the order in which they were scheduled.
-/

namespace Nachos.Threads.NachosList

variable {α : Type*}

/-- An element that is taken off the head and inserted again comes back to the head
if no other element follows that is not greater. -/
theorem sortedInsert_eq_cons_iff (e : ListElement α) (es : NachosList α) :
    es.sortedInsert e.item e.key = e :: es ↔
      ∀ f ∈ es.takeWhile (fun f => f.key ≤ e.key), f = e := by
  induction es with
  | nil => simp [sortedInsert]
  | cons f fs ih =>
      rw [sortedInsert, List.orderedInsert_cons, List.takeWhile_cons]
      by_cases hlt : e.key < f.key
      · have hnot : decide (f.key ≤ e.key) = false := decide_eq_false (not_le.mpr hlt)
        rw [if_pos hlt, hnot]
        simp
      · have hle : decide (f.key ≤ e.key) = true := decide_eq_true (not_lt.mp hlt)
        rw [if_neg hlt, hle, if_pos rfl, List.forall_mem_cons, ← ih, List.cons.injEq]
        refine and_congr_right fun hfe => ?_
        rw [hfe]
        rfl

/-- Where a sorted list is cut by an insertion, everything behind is greater. -/
theorem SortedBy.lt_of_head {xs : NachosList α} {r : α → α → Prop} {key : Int}
    (h : xs.SortedBy r) (hhead : ∀ e, xs.head? = some e → key < e.key) :
    ∀ e ∈ xs, key < e.key := by
  cases xs with
  | nil => exact fun e he => absurd he List.not_mem_nil
  | cons f fs =>
      have hf : key < f.key := hhead f rfl
      intro e he
      rcases List.mem_cons.mp he with rfl | he
      · exact hf
      · rcases (List.pairwise_cons.mp h).1 e he with hlt | ⟨heq, _⟩
        · exact hf.trans hlt
        · exact heq ▸ hf

end Nachos.Threads.NachosList

namespace Nachos.Machine

open Threads Lib

variable {H : Type}

/-- The interrupts that are to occur at the time `when`. -/
def forTime (when : Int) (ps : List (PendingInterrupt H)) : List (PendingInterrupt H) :=
  ps.filter (·.when = when)

theorem forTime_append (when : Int) (ps qs : List (PendingInterrupt H)) :
    forTime when (ps ++ qs) = forTime when ps ++ forTime when qs :=
  List.filter_append ps qs

theorem forTime_eq_nil {when : Int} {ps : List (PendingInterrupt H)}
    (h : ∀ p ∈ ps, when < p.when) : forTime when ps = [] := by
  refine List.filter_eq_nil_iff.mpr fun p hp => ?_
  rw [decide_eq_true_eq]
  exact (h p hp).ne'

namespace Agenda

variable {a : Agenda H}

/-- What has been scheduled for a time has been invoked or is pending, in this
order. -/
def Queued (a : Agenda H) : Prop :=
  ∀ when, forTime when a.scheduled =
    forTime when (a.invoked.map Prod.fst) ++ forTime when a.pending.items

/-- A new interrupt goes behind those for the same time. -/
theorem forTime_sortedInsert {xs : NachosList (PendingInterrupt H)} {r}
    (hsorted : xs.SortedBy r) (hkeys : ∀ e ∈ xs, e.key = e.item.when) (p : PendingInterrupt H)
    (when : Int) : forTime when (xs.sortedInsert p p.when).items =
      forTime when xs.items ++ forTime when [p] := by
  obtain ⟨before, after, rfl, hinsert, _, hafter⟩ :=
    NachosList.sortedInsert_split xs p p.when
  have hgreater := NachosList.SortedBy.lt_of_head (List.pairwise_append.mp hsorted).2.1 hafter
  have hitems : (NachosList.sortedInsert (before ++ after) p p.when).items =
      NachosList.items before ++ ([p] ++ NachosList.items after) := by
    rw [hinsert]
    exact List.map_append
  have hsplit : NachosList.items (before ++ after) =
      NachosList.items before ++ NachosList.items after := List.map_append
  rw [hitems, hsplit, forTime_append, forTime_append, forTime_append, List.append_assoc]
  by_cases hw : p.when = when
  · have hnone : forTime when (NachosList.items after) = [] := by
      refine forTime_eq_nil fun q hq => ?_
      obtain ⟨e, he, rfl⟩ := List.mem_map.mp hq
      rw [← hw, ← hkeys e (List.mem_append_right before he)]
      exact hgreater e he
    rw [hnone, List.append_nil, List.nil_append]
  · have hother : forTime when [p] = [] := List.filter_eq_nil_iff.mpr (by simpa using hw)
    rw [hother, List.append_nil, List.nil_append]

theorem Queued.schedule (h : a.Queued) (hinv : a.Inv) (handler : H) (arg fromNow : Int)
    (type : IntType) : (a.schedule handler arg fromNow type).Queued := by
  intro when
  show forTime when (a.scheduled ++ [_]) = _ ++ forTime when (a.pending.sortedInsert _ _).items
  rw [forTime_append, h when, List.append_assoc]
  exact congrArg _ (forTime_sortedInsert hinv.sorted hinv.keys _ when).symm

/-- The first interrupt is delivered. -/
theorem Queued.deliver (h : a.Queued) {e : ListElement (PendingInterrupt H)}
    {es : NachosList (PendingInterrupt H)} (hpending : a.pending = e :: es) (st : Statistics)
    (now : Int) :
    ({ a with stats := st, pending := es, invoked := a.invoked ++ [(e.item, now)] } :
      Agenda H).Queued := by
  intro when
  show forTime when a.scheduled =
    forTime when ((a.invoked ++ [(e.item, now)]).map Prod.fst) ++ forTime when es.items
  rw [h when, hpending, NachosList.items_cons, List.map_append, forTime_append, List.append_assoc,
    ← List.singleton_append, forTime_append]
  rfl

end Agenda

namespace Interrupt

variable {s s' : Interrupt H} {handle : Handlers H}

/-! ## One check -/

/-- Nothing that the check may change is different. -/
structure Unchanged (s s' : Interrupt H) : Prop where
  pending : s'.pending = s.pending
  stats : s'.stats = s.stats
  status : s'.status = s.status
  inHandler : s'.inHandler = s.inHandler

/-- If `CheckIfDue(FALSE)` returns `FALSE`, it has changed nothing. -/
def ChecksQuietly (s : Interrupt H) : Prop :=
  ∀ handle s', s.checkIfDue handle false = some (false, s') → Unchanged s s'

/-- The first pending interrupt is not due, and another one follows that is not
later. -/
def TiedEarly (s : Interrupt H) : Prop :=
  match s.pending with
  | [] => False
  | e :: es => s.stats.totalTicks < e.key ∧ ∃ f ∈ es.takeWhile (fun f => f.key ≤ e.key), f ≠ e

theorem tiedEarly_nil (h : s.pending = []) : ¬s.TiedEarly := by
  unfold TiedEarly
  rw [h]
  exact id

theorem tiedEarly_cons {e : ListElement (PendingInterrupt H)}
    {es : NachosList (PendingInterrupt H)} (h : s.pending = e :: es) :
    s.TiedEarly ↔
      s.stats.totalTicks < e.key ∧ ∃ f ∈ es.takeWhile (fun f => f.key ≤ e.key), f ≠ e := by
  unfold TiedEarly
  rw [h]

instance [DecidableEq H] (s : Interrupt H) : Decidable s.TiedEarly :=
  match h : s.pending with
  | [] => isFalse (tiedEarly_nil h)
  | _ :: _ => decidable_of_iff _ (tiedEarly_cons h).symm

/-- Two interrupts for the same time, which has not come, are the only case in which
a check that fires nothing changes something. -/
theorem checksQuietly_iff (hoff : s.level = .intOff) : s.ChecksQuietly ↔ ¬s.TiedEarly := by
  constructor
  · intro hquiet htied
    cases hpending : s.pending with
    | nil => exact tiedEarly_nil hpending htied
    | cons e es =>
        obtain ⟨hlater, f, hf, hne⟩ := (tiedEarly_cons hpending).mp htied
        have hr : s.removeDue false =
            (none, { s with pending := NachosList.sortedInsert es e.item e.key }) := by
          unfold removeDue
          rw [hpending]
          exact if_pos ⟨rfl, hlater⟩
        have hsame := hquiet (fun _ => []) _ (checkIfDue_eq_false.mpr ⟨hoff, hr⟩)
        have hback : NachosList.sortedInsert es e.item e.key = e :: es :=
          hsame.pending.trans hpending
        exact hne ((NachosList.sortedInsert_eq_cons_iff e es).mp hback f hf)
  · intro htied handle s' hc
    cases removes_of_removeDue (checkIfDue_eq_false.mp hc).2 with
    | empty => exact ⟨rfl, rfl, rfl, rfl⟩
    | @later e es hpending hfalse hlater =>
        refine ⟨?_, rfl, rfl, rfl⟩
        show NachosList.sortedInsert es e.item e.key = s.pending
        rw [hpending]
        refine (NachosList.sortedInsert_eq_cons_iff e es).mpr fun f hf => ?_
        by_contra hne
        exact htied ((tiedEarly_cons hpending).mpr ⟨hlater, f, hf, hne⟩)
    | onlyTimer hpending hidle hnow => exact ⟨hpending.symm, clockAt_of_le (hnow rfl), rfl, rfl⟩

/-! ## The checks of a run -/

/-- The states in which `while (CheckIfDue(FALSE))` calls `CheckIfDue`. -/
def loopChecks (handle : Handlers H) : Nat → Interrupt H → List (Interrupt H)
  | 0, _ => []
  | n + 1, s => s ::
      match s.checkIfDue handle false with
      | some (true, s') => loopChecks handle n s'
      | _ => []

/-- `OneTick` when its loop begins. -/
def ticked (s : Interrupt H) : Interrupt H :=
  { s with stats := s.stats.tick s.status, level := .intOff }

/-- The states in which a call of the run calls `CheckIfDue(FALSE)`. -/
def checks (s : Interrupt H) : InterruptAction H → List (Interrupt H)
  | .oneTick handle => loopChecks handle (s.ticked.dueCount + 1) s.ticked
  | .setLevel now handle =>
      if now = .intOn ∧ s.level = .intOff then loopChecks handle (s.ticked.dueCount + 1) s.ticked
      else []
  | .idle handle =>
      match checkIfDue { s with status := .idleMode } handle true with
      | some (true, m) => loopChecks handle (m.dueCount + 1) m
      | _ => []
  | _ => []

theorem level_removeDue {advanceClock : Bool} {p : Option (PendingInterrupt H)}
    (hr : s.removeDue advanceClock = (p, s')) : s'.level = s.level := by
  cases removes_of_removeDue hr with
  | empty | later | onlyTimer | occurs => rfl

/-- Interrupts are off after a check. -/
theorem level_checkIfDue {advanceClock b : Bool}
    (hc : s.checkIfDue handle advanceClock = some (b, s')) : s'.level = .intOff := by
  cases b with
  | false =>
      obtain ⟨hoff, hr⟩ := checkIfDue_eq_false.mp hc
      exact (level_removeDue hr).trans hoff
  | true =>
      obtain ⟨hoff, p, m, r, hr, hrun, rfl⟩ := checkIfDue_eq_true hc
      exact (run_handled hrun).level ((level_removeDue hr).trans hoff)

theorem level_loopChecks {n : Nat} (hoff : s.level = .intOff) :
    ∀ m ∈ loopChecks handle n s, m.level = .intOff := by
  induction n generalizing s with
  | zero => exact fun m hm => absurd hm List.not_mem_nil
  | succ n ih =>
      intro m hm
      simp only [loopChecks] at hm
      rcases List.mem_cons.mp hm with rfl | hm
      · exact hoff
      · split at hm
        · rename_i hc
          exact ih (level_checkIfDue hc) m hm
        · cases hm

/-- Every check of a run is made with interrupts off. -/
theorem level_checks {a : InterruptAction H} : ∀ m ∈ s.checks a, m.level = .intOff := by
  intro m hm
  cases a with
  | schedule | setStatus | yieldReturns => cases hm
  | oneTick handle => exact level_loopChecks rfl m hm
  | setLevel now handle =>
      simp only [checks] at hm
      split at hm
      · exact level_loopChecks rfl m hm
      · cases hm
  | idle handle =>
      simp only [checks] at hm
      split at hm
      · rename_i hc
        exact level_loopChecks (level_checkIfDue hc) m hm
      · cases hm

/-! ## The order along a run -/

/-- A handler schedules at the end of the queues. -/
theorem queued_handler {cs : List (HandlerCall H)} (hinv : s.toAgenda.Inv)
    (hq : s.toAgenda.Queued) (hrun : run handlerCall s cs = some s') : s'.toAgenda.Queued := by
  refine (run_preserves (I := fun s : Interrupt H => s.toAgenda.Inv ∧ s.toAgenda.Queued)
    (fun m c m' hm hcall => ?_) ⟨hinv, hq⟩ hrun).2
  refine ⟨(handlerCall_handled hcall).inv hm.1, ?_⟩
  rcases handlerCall_cases hcall with ⟨handler, arg, fromNow, type, _, rfl⟩ | rfl | rfl
  · exact hm.2.schedule hm.1 handler arg fromNow type
  · exact hm.2
  · exact hm.2

/-- A check that finds no interrupts tied keeps the queues. -/
theorem queued_checkIfDue {advanceClock b : Bool} (hinv : s.toAgenda.Inv)
    (hq : s.toAgenda.Queued) (htied : advanceClock = false → ¬s.TiedEarly)
    (hc : s.checkIfDue handle advanceClock = some (b, s')) : s'.toAgenda.Queued := by
  cases b with
  | false =>
      obtain ⟨hoff, hr⟩ := checkIfDue_eq_false.mp hc
      have hpending : s'.pending = s.pending := by
        cases removes_of_removeDue hr with
        | empty => rfl
        | later _ hfalse _ =>
            subst hfalse
            exact ((checksQuietly_iff hoff).mpr (htied rfl) handle _ hc).pending
        | onlyTimer hpending _ _ => exact hpending.symm
      obtain ⟨st, pd, rfl, _⟩ := removeDue_none hinv hr
      change pd = s.pending at hpending
      subst hpending
      exact hq
  | true =>
      obtain ⟨_, p, m, r, hr, hrun, rfl⟩ := checkIfDue_eq_true hc
      obtain ⟨st, pd, rfl, hdelivered, _⟩ := removeDue_some hinv hr
      cases removes_of_removeDue hr with
      | @occurs e es hpending hnow =>
          show r.toAgenda.Queued
          exact queued_handler hdelivered (hq.deliver hpending _ _) hrun

theorem queued_dueLoop {n : Nat} (hinv : s.toAgenda.Inv) (hq : s.toAgenda.Queued)
    (htied : ∀ m ∈ loopChecks handle n s, ¬m.TiedEarly)
    (hl : dueLoop handle n s = some s') : s'.toAgenda.Queued := by
  -- the induction is on the rounds of the loop; each of them is one check
  induction n generalizing s with
  | zero => cases hl
  | succ n ih =>
      simp only [loopChecks, List.forall_mem_cons] at htied
      obtain ⟨hfirst, hrest⟩ := htied
      simp only [dueLoop] at hl
      split at hl
      · cases hl
      · rename_i hc
        cases hl
        exact queued_checkIfDue hinv hq (fun _ => hfirst) hc
      · rename_i m hc
        rw [hc] at hrest
        exact ih (checkIfDue_true hinv hc).1.inv
          (queued_checkIfDue hinv hq (fun _ => hfirst) hc) hrest hl

theorem queued_oneTick (h : s.Inv) (hq : s.toAgenda.Queued)
    (htied : ∀ m ∈ loopChecks handle (s.ticked.dueCount + 1) s.ticked, ¬m.TiedEarly)
    (ht : s.oneTick handle = some s') : s'.toAgenda.Queued := by
  obtain ⟨m, hm, hs'⟩ := Option.map_eq_some_iff.mp ht
  have hqueued : m.toAgenda.Queued := queued_dueLoop (s := s.ticked) h.ticked hq htied hm
  split at hs'
  all_goals
    cases hs'
    exact hqueued

theorem queued_idle (h : s.Inv) (hq : s.toAgenda.Queued)
    (htied : ∀ m ∈ s.checks (.idle handle), ¬m.TiedEarly) (hi : s.idle handle = some s') :
    s'.toAgenda.Queued := by
  simp only [idle] at hi
  simp only [checks] at htied
  have hfirst : ∀ b m, checkIfDue { s with status := .idleMode } handle true = some (b, m) →
      m.toAgenda.Queued := by
    intro b m hc
    have hnot : true = false → ¬TiedEarly { s with status := .idleMode } :=
      fun hfalse => absurd hfalse (by decide)
    exact queued_checkIfDue (s := { s with status := .idleMode }) h.agenda hq hnot hc
  split at hi
  · cases hi
  · rename_i m hc
    obtain ⟨r, hr, hs'⟩ := Option.map_eq_some_iff.mp hi
    cases hs'
    rw [hc] at htied
    have hinv := (checkIfDue_true (s := { s with status := .idleMode }) h.agenda hc).1.inv
    show r.toAgenda.Queued
    exact queued_dueLoop hinv (hfirst true m hc) htied hr
  · rename_i m hc
    cases hi
    exact hfirst false m hc

/-- One call keeps the queues, if none of its checks finds interrupts tied. -/
theorem queued_step {a : InterruptAction H} (h : s.Inv) (hq : s.toAgenda.Queued)
    (htied : ∀ m ∈ s.checks a, ¬m.TiedEarly) (hs : s.step a = some s') : s'.toAgenda.Queued := by
  unfold step at hs
  split at hs
  · cases hs
  · cases a with
    | schedule handler arg fromNow type =>
        simp only [schedule] at hs
        split at hs
        · cases hs
          exact hq.schedule h.agenda handler arg fromNow type
        · cases hs
    | oneTick handle => exact queued_oneTick h hq htied hs
    | setLevel now handle =>
        simp only [setLevel] at hs
        simp only [checks] at htied
        split at hs
        · split at hs
          · rename_i hon
            rw [if_pos hon] at htied
            have hset : ({ s with level := now } : Interrupt H).Inv :=
              ⟨h.agenda, h.status, h.yielding⟩
            exact queued_oneTick hset hq htied hs
          · cases hs
            exact hq
        · cases hs
    | idle handle => exact queued_idle h hq htied hs
    | setStatus status | yieldReturns n =>
        simp only at hs
        split at hs
        · cases hs
        · cases hs
          exact hq

theorem queued_run {as : List (InterruptAction H)} (hrun : run step init as = some s)
    (htied : ∀ m ∈ trace step checks init as, ¬m.TiedEarly) : s.toAgenda.Queued := by
  have hok : Along step (fun _ _ => True) init as := along_of_forall (fun _ _ => trivial) init as
  have hinv : s.Inv ∧
      ((∀ m ∈ [] ++ trace step checks init as, ¬m.TiedEarly) → s.toAgenda.Queued) := by
    refine trace_invariant
      (I := fun s (h : List (Interrupt H)) =>
        s.Inv ∧ ((∀ m ∈ h, ¬m.TiedEarly) → s.toAgenda.Queued))
      (fun m h a m' hm _ hstep => ?_) ⟨inv_init, fun _ _ => rfl⟩ hok hrun
    refine ⟨(step_spec hm.1 hstep).1, fun hall => ?_⟩
    refine queued_step hm.1 (hm.2 fun c hc => hall c (List.mem_append_left _ hc)) ?_ hstep
    exact fun c hc => hall c (List.mem_append_right _ hc)
  exact hinv.2 htied

/-! ## What holds in every run -/

/-- The checks of the run that fire nothing change nothing, and interrupts for the
same time have been delivered in the order in which they were scheduled. -/
structure KeepsOrder (as : List (InterruptAction H)) (s : Interrupt H) : Prop where
  quiet : ∀ m ∈ trace step checks init as, m.ChecksQuietly
  inOrder : ∀ when, forTime when (s.invoked.map Prod.fst) <+: forTime when s.scheduled

/-- With any pending interrupts and any time, a check that fires nothing changes
nothing exactly when the first interrupt is due, or is the only one for its time.
A run keeps the order of simultaneous interrupts exactly when this is so at all of
its checks. -/
theorem keepsOrder_iff :
    (∀ s : Interrupt H, s.level = .intOff → (s.ChecksQuietly ↔ ¬s.TiedEarly)) ∧
      ∀ (as : List (InterruptAction H)) (s : Interrupt H), run step init as = some s →
        (KeepsOrder as s ↔ ∀ m ∈ trace step checks init as, ¬m.TiedEarly) := by
  refine ⟨fun s hoff => checksQuietly_iff hoff, fun as s hrun => ?_⟩
  have hoff : ∀ m ∈ trace step checks init as, m.level = .intOff := by
    intro m hm
    obtain ⟨m', a, ha⟩ := mem_trace hm
    exact level_checks m ha
  constructor
  · intro horder m hm
    exact (checksQuietly_iff (hoff m hm)).mp (horder.quiet m hm)
  · intro htied
    refine ⟨fun m hm => (checksQuietly_iff (hoff m hm)).mpr (htied m hm), fun when => ?_⟩
    rw [queued_run hrun htied when]
    exact List.prefix_append _ _

/-- The disk and the network are scheduled for one time, and `ticks` ticks pass. -/
def diskAndNetwork (fromNow : Int) (ticks : Nat) : List (InterruptAction Unit) :=
  [.schedule () 0 fromNow .diskInt, .schedule () 1 fromNow .networkRecvInt,
    .setLevel .intOn fun _ => []] ++ List.replicate ticks (.oneTick fun _ => [])

/-- At the first check both are due. -/
theorem keepsOrder_iff_due : ∃ s : Interrupt Unit, run step init (diskAndNetwork 10 1) = some s ∧
    s.invoked.map (fun x => (x.1.serial, x.2)) = [(0, 10), (1, 10)] ∧ s.ticked.ChecksQuietly ∧
      KeepsOrder (diskAndNetwork 10 1) s :=
  ⟨_, rfl, rfl, (keepsOrder_iff.1 _ rfl).mpr (by decide),
    (keepsOrder_iff.2 (diskAndNetwork 10 1) _ rfl).mpr (by decide)⟩

/-- At the first check both are to come, and the second tick delivers the network
before the disk. -/
theorem early_check_swaps : ∃ s s' : Interrupt Unit,
    run step init (diskAndNetwork 15 0) = some s ∧ s.invoked = [] ∧
      s.scheduled.map (·.serial) = [0, 1] ∧ s.pending.items.map (·.serial) = [1, 0] ∧
      run step init (diskAndNetwork 15 1) = some s' ∧
      s'.invoked.map (fun x => (x.1.serial, x.2)) = [(1, 20), (0, 20)] ∧
      ¬KeepsOrder (diskAndNetwork 15 1) s' := by
  refine ⟨_, _, rfl, rfl, rfl, rfl, rfl, rfl, fun h => ?_⟩
  exact absurd (h.inOrder 15) (by decide)

end Interrupt

end Nachos.Machine

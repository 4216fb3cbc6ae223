import Nachos.Threads.Reaping

/-!
# Priority scheduling

`ReadyToRun` inserts a thread into the ready list by its priority, behind the
threads with the same priority, and `FindNextToRun` takes the first thread.
`readied` lists the threads that a step makes ready, in the order of the calls
of `ReadyToRun`, and `readyList_step` says what the step does to the ready
list.  `Arranged` is the invariant: the ready list is sorted by priority, and
by the order of arrival where priorities are equal.

`Sleep` therefore runs the best thread.  `Yield` takes the first thread of the
ready list before it inserts the caller, so the caller does not compete.

* `yield_to_worse` is a run in which a thread with priority `0` yields to a
  thread with priority `12`.
* `best_thread_runs`: as long as `Yield` is called only by threads that are no
  better than the first ready thread, every decision runs the best thread.
-/

namespace Nachos.Threads

open Function Lib

/-! ## The order of arrival -/

/-- In the list of arrivals, `u` has arrived after the last arrival of `t`. -/
def ArrivedBefore (arrivals : List ThreadPtr) (t u : ThreadPtr) : Prop :=
  ∃ before after, arrivals = before ++ t :: after ∧ t ∉ after ∧ u ∈ after

/-- An arrival of another thread does not change the order. -/
theorem ArrivedBefore.append {arrivals : List ThreadPtr} {t u v : ThreadPtr}
    (h : ArrivedBefore arrivals t u) (hv : t ≠ v) : ArrivedBefore (arrivals ++ [v]) t u := by
  obtain ⟨before, after, rfl, ht, hu⟩ := h
  refine ⟨before, after ++ [v], by simp, ?_, List.mem_append_left _ hu⟩
  simp [ht, hv]

/-- The last arrival is behind all others. -/
theorem arrivedBefore_last {arrivals : List ThreadPtr} {t v : ThreadPtr} (ht : t ∈ arrivals)
    (hv : t ≠ v) : ArrivedBefore (arrivals ++ [v]) t v := by
  induction arrivals with
  | nil => cases ht
  | cons w arrivals ih =>
    by_cases hmem : t ∈ arrivals
    · obtain ⟨before, after, he, ha, hva⟩ := ih hmem
      exact ⟨w :: before, after, by rw [List.cons_append, he, List.cons_append], ha, hva⟩
    · have htw : t = w := by
        rcases List.mem_cons.mp ht with he | hin
        · exact he
        · exact absurd hin hmem
      subst htw
      exact ⟨[], arrivals ++ [v], by simp, by simp [hmem, hv], by simp⟩

/-! ## The ready list -/

/-- Insert threads one after the other. -/
def insertAll (priority : ThreadPtr → Int) (xs : NachosList ThreadPtr) (ts : List ThreadPtr) :
    NachosList ThreadPtr :=
  ts.foldl (fun xs t => xs.sortedInsert t (priority t)) xs

theorem readyList_wake (s : Sched) (q : QueueId) :
    (s.wake q).readyList = insertAll s.priority s.readyList ((s.queue q).items.take 1) := by
  cases hq : s.queue q with
  | nil =>
    rw [Sched.wake_nil s q hq]
    rfl
  | cons e es =>
    rw [Sched.wake_cons s q hq]
    rfl

theorem priority_wake (s : Sched) (q : QueueId) : (s.wake q).priority = s.priority := by
  cases hq : s.queue q with
  | nil => rw [Sched.wake_nil s q hq]
  | cons e es =>
    rw [Sched.wake_cons s q hq]
    rfl

theorem iterate_wake_ready (s : Sched) (q : QueueId) (n : Nat) :
    ((fun s : Sched => s.wake q)^[n] s).readyList =
        insertAll s.priority s.readyList ((s.queue q).items.take n) ∧
      ((fun s : Sched => s.wake q)^[n] s).priority = s.priority := by
  induction n generalizing s with
  | zero => exact ⟨rfl, rfl⟩
  | succ n ih =>
    obtain ⟨hlist, hpriority⟩ := ih (s.wake q)
    rw [iterate_succ_apply, hlist, hpriority, priority_wake, readyList_wake, Sched.wake_queue,
      update_self]
    refine ⟨?_, rfl⟩
    cases hq : s.queue q with
    | nil | cons e es => simp [insertAll, NachosList.items]

theorem readyList_wakeAll (s : Sched) (q : QueueId) :
    (s.wakeAll q).readyList = insertAll s.priority s.readyList (s.queue q).items ∧
      (s.wakeAll q).priority = s.priority := by
  obtain ⟨hlist, hpriority⟩ := iterate_wake_ready s q (s.queue q).length
  refine ⟨?_, hpriority⟩
  rw [Sched.wakeAll, hlist, List.take_of_length_le]
  simp [NachosList.items]

/-- The ready list is sorted by priority and by arrival. -/
structure Arranged (arrivals : List ThreadPtr) (priority : ThreadPtr → Int)
    (xs : NachosList ThreadPtr) : Prop where
  keys : ∀ e ∈ xs, e.key = priority e.item
  sorted : xs.SortedBy (ArrivedBefore arrivals)
  arrived : ∀ t ∈ xs.items, t ∈ arrivals

section Arranged

variable {arrivals : List ThreadPtr} {priority priority' : ThreadPtr → Int}
  {xs : NachosList ThreadPtr}

theorem Arranged.tail (h : Arranged arrivals priority xs) :
    Arranged arrivals priority xs.tail := by
  refine ⟨fun e he => h.keys e (List.mem_of_mem_tail he), List.Pairwise.tail h.sorted, ?_⟩
  intro t ht
  refine h.arrived t ?_
  rw [NachosList.items, List.map_tail] at ht
  exact List.mem_of_mem_tail ht

theorem Arranged.congr (h : Arranged arrivals priority xs)
    (heq : ∀ t ∈ xs.items, priority' t = priority t) : Arranged arrivals priority' xs := by
  refine ⟨fun e he => ?_, h.sorted, h.arrived⟩
  rw [heq e.item (List.mem_map_of_mem he)]
  exact h.keys e he

/-- The arrival of a thread that is not ready. -/
theorem Arranged.insert {t : ThreadPtr} (h : Arranged arrivals priority xs)
    (ht : t ∉ xs.items) :
    Arranged (arrivals ++ [t]) priority (xs.sortedInsert t (priority t)) := by
  have hne : ∀ u ∈ xs.items, u ≠ t := fun u hu he => ht (he ▸ hu)
  refine ⟨?_, ?_, ?_⟩
  · intro e he
    rcases (List.perm_orderedInsert _ _ _).mem_iff.mp he |> List.mem_cons.mp with rfl | he
    · rfl
    · exact h.keys e he
  · refine NachosList.SortedBy.sortedInsert ?_ ?_
    · exact h.sorted.mono fun u hu v huv => huv.append (hne u hu)
    · exact fun u hu => arrivedBefore_last (h.arrived u hu) (hne u hu)
  · intro u hu
    rcases NachosList.mem_items_sortedInsert.mp hu with rfl | hu
    · exact List.mem_append_right _ (List.mem_singleton.mpr rfl)
    · exact List.mem_append_left _ (h.arrived u hu)

/-- The arrival of several threads. -/
theorem Arranged.insertAll {ts : List ThreadPtr} (h : Arranged arrivals priority xs)
    (hnodup : ts.Nodup) (hts : ∀ t ∈ ts, t ∉ xs.items) :
    Arranged (arrivals ++ ts) priority (insertAll priority xs ts) := by
  induction ts generalizing arrivals xs with
  | nil => simpa [Threads.insertAll] using h
  | cons t ts ih =>
    obtain ⟨ht, hnodup'⟩ := List.nodup_cons.mp hnodup
    have hfirst := h.insert (hts t List.mem_cons_self)
    have hrest := ih hfirst hnodup' fun u hu hin => by
      rcases NachosList.mem_items_sortedInsert.mp hin with rfl | hin
      · exact ht hu
      · exact hts u (List.mem_cons_of_mem t hu) hin
    rw [List.append_assoc] at hrest
    exact hrest

theorem mem_items_insertAll {ts : List ThreadPtr} {u : ThreadPtr} :
    u ∈ (insertAll priority xs ts).items ↔ u ∈ xs.items ∨ u ∈ ts := by
  induction ts generalizing xs with
  | nil => simp [insertAll]
  | cons t ts ih =>
    have hcons : insertAll priority xs (t :: ts) =
        insertAll priority (xs.sortedInsert t (priority t)) ts := rfl
    rw [hcons, ih, NachosList.mem_items_sortedInsert, List.mem_cons, or_comm (a := u = t),
      or_assoc]

/-- The head of the ready list is the best of its threads. -/
theorem Arranged.head_best {e : ListElement ThreadPtr} {es : NachosList ThreadPtr}
    (h : Arranged arrivals priority (e :: es)) {u : ThreadPtr} (hu : u ∈ es.items) :
    priority e.item < priority u ∨
      priority e.item = priority u ∧ ArrivedBefore arrivals e.item u := by
  obtain ⟨b, hb, rfl⟩ := List.mem_map.mp hu
  have hkey := h.keys b (List.mem_cons_of_mem e hb)
  rw [← h.keys e List.mem_cons_self, ← hkey]
  exact (List.pairwise_cons.mp h.sorted).1 b hb

end Arranged

namespace Kernel

variable {ι σ η : Type} {prog : Program ι σ η} {k k' : Kernel ι σ} {a : Action ι η}
  {rest : List (Instr ι)}

/-- The threads that an instruction makes ready, in the order of the calls of
`ReadyToRun`. -/
def readiedBy (k : Kernel ι σ) : Instr ι → List ThreadPtr
  | .call (.fork t _) => [t]
  | .call (.v n) => (k.sched.queue (.sem (.sem n))).items.take 1
  | .call (.release l) => (k.sched.queue (.sem (.lock l))).items.take 1
  | .call (.wait _ l) => (k.sched.queue (.sem (.lock l))).items.take 1
  | .call (.signal c l) =>
      if k.holdingThread l = some k.curAddress then (k.sched.queue (.cond c)).items.take 1 else []
  | .call (.broadcast c l) =>
      if k.holdingThread l = some k.curAddress then (k.sched.queue (.cond c)).items else []
  | .call .yield => if k.sched.readyList = [] then [] else [k.cur]
  | _ => []

/-- The instructions that call `FindNextToRun`. -/
def findsNext : Instr ι → Bool
  | .call .yield => true
  | .sleep => true
  | _ => false

/-- What an instruction does to the ready list. -/
def readyAfter (k : Kernel ι σ) (i : Instr ι) : NachosList ThreadPtr :=
  insertAll k.sched.priority
    (if findsNext i then k.sched.readyList.tail else k.sched.readyList) (k.readiedBy i)

theorem readyList_execCall {c : Call ι} (h : k.execCall prog rest c = some k') :
    k'.sched.readyList = k.readyAfter (.call c) := by
  cases c with
  | newThread pr =>
    obtain ⟨s, hs, rfl⟩ := Option.map_eq_some_iff.mp h
    obtain ⟨ids, _, rfl⟩ := Sched.newThread_spec hs
    rfl
  | yield =>
    rw [← Option.some.inj h, yield]
    cases hl : k.sched.readyList with
    | nil =>
      simp only [Sched.findNextToRun, hl, NachosList.remove_nil]
      simp [readyAfter, readiedBy, findsNext, insertAll, hl, disable, setCode]
    | cons e es =>
      simp only [Sched.findNextToRun, hl, NachosList.remove_cons]
      simp [readyAfter, readiedBy, findsNext, insertAll, hl, disable, setCode, switchTo,
        Sched.run, Sched.readyToRun, Sched.setStatus]
  | p n | acquire l =>
    rw [← Option.some.inj h, p, pTest]
    split <;> rfl
  | v n | release l | wait c l =>
    cases h
    exact readyList_wake k.sched _
  | signal c l =>
    rw [← Option.some.inj h, signal]
    by_cases hh : k.holdingThread l = some k.curAddress
    · simp only [readyAfter, readiedBy, hh, if_true]
      exact readyList_wake k.sched _
    · simp only [readyAfter, readiedBy, hh, if_false]
      rfl
  | broadcast c l =>
    rw [← Option.some.inj h, broadcast]
    by_cases hh : k.holdingThread l = some k.curAddress
    · simp only [readyAfter, readiedBy, hh, if_true]
      exact (readyList_wakeAll k.sched _).1
    · simp only [readyAfter, readiedBy, hh, if_false]
      rfl
  | client i =>
    obtain ⟨r, _, rfl⟩ := Option.map_eq_some_iff.mp h
    rfl
  | _ =>
    cases h
    rfl

theorem readyList_execInstr {i : Instr ι} (h : k.execInstr prog rest i = some k') :
    k'.sched.readyList = k.readyAfter i := by
  cases i with
  | call c => exact readyList_execCall h
  | setLevel l | threadRoot | dueLoop | pLoop s =>
    rw [← Option.some.inj h]
    simp only [setLevel, dueDone, pTest]
    split <;> rfl
  | sleep =>
    rw [← Option.some.inj h, sleep]
    cases hl : k.sched.readyList with
    | nil =>
      simp only [Sched.findNextToRun, hl, NachosList.remove_nil]
      simp [readyAfter, readiedBy, findsNext, insertAll, hl, setCode]
    | cons e es =>
      simp only [Sched.findNextToRun, hl, NachosList.remove_cons]
      simp [readyAfter, readiedBy, findsNext, insertAll, hl, setCode, switchTo, Sched.run,
        Sched.setStatus]
  | afterSwitch =>
    obtain ⟨s, hs, rfl⟩ := Option.map_eq_some_iff.mp h
    rcases Sched.reap_spec hs with ⟨rfl, _⟩ | ⟨_, _, _, rfl⟩ <;> rfl
  | notReached => cases h
  | _ =>
    cases h
    rfl

/-! ## One step -/

/-- Only `SetPriority` changes the priority of a thread, and only of the
current one. -/
theorem priority_execInstr {i : Instr ι} (h : k.execInstr prog rest i = some k')
    {t : ThreadPtr} (ht : t < k.sched.created)
    (hset : ∀ p, i = .call (.setPriority p) → t ≠ k.cur) :
    k'.sched.priority t = k.sched.priority t := by
  cases i with
  | call c =>
    cases c with
    | newThread pr =>
      obtain ⟨s, hs, rfl⟩ := Option.map_eq_some_iff.mp h
      obtain ⟨ids, _, rfl⟩ := Sched.newThread_spec hs
      exact update_of_ne (Nat.ne_of_lt ht) _ _
    | setPriority p =>
      cases h
      exact update_of_ne (hset p rfl) _ _
    | yield =>
      rw [← Option.some.inj h, yield]
      cases hl : k.sched.readyList <;> simp only [Sched.findNextToRun, hl, NachosList.remove_nil,
        NachosList.remove_cons] <;> rfl
    | p n | acquire l =>
      rw [← Option.some.inj h, p, pTest]
      split <;> rfl
    | v n | release l | wait c l =>
      cases h
      exact congrFun (priority_wake k.sched _) t
    | signal c l =>
      rw [← Option.some.inj h, signal]
      split
      · exact congrFun (priority_wake k.sched _) t
      · rfl
    | broadcast c l =>
      rw [← Option.some.inj h, broadcast]
      split
      · exact congrFun (readyList_wakeAll k.sched _).2 t
      · rfl
    | client i =>
      obtain ⟨r, _, rfl⟩ := Option.map_eq_some_iff.mp h
      rfl
    | _ =>
      cases h
      rfl
  | setLevel l | threadRoot | dueLoop | pLoop s =>
    rw [← Option.some.inj h]
    simp only [setLevel, dueDone, pTest]
    split <;> rfl
  | sleep =>
    rw [← Option.some.inj h, sleep]
    cases hl : k.sched.readyList <;> simp only [Sched.findNextToRun, hl, NachosList.remove_nil,
      NachosList.remove_cons] <;> rfl
  | afterSwitch =>
    obtain ⟨s, hs, rfl⟩ := Option.map_eq_some_iff.mp h
    rcases Sched.reap_spec hs with ⟨rfl, _⟩ | ⟨_, _, _, rfl⟩ <;> rfl
  | notReached => cases h
  | _ =>
    cases h
    rfl

/-- The threads that the step makes ready. -/
def readied (k : Kernel ι σ) (a : Action ι η) : List ThreadPtr :=
  match a, k.code k.cur with
  | .exec, i :: _ => k.readiedBy i
  | _, _ => []

/-- A thread that calls a routine other than `V` and `Acquire` is running. -/
theorem running_of_call {c : Call ι} (hc : k.Control)
    (hcode : k.code k.cur = .call c :: rest) (hallowed : ¬ c.Allowed .asleep) :
    k.sched.status k.cur = .running := by
  have hwf := hc.current
  rw [hcode] at hwf
  refine (running_of_mode fun hm => ?_).1
  rw [hm] at hwf
  exact hallowed hwf.1

/-- Threads that become ready were not, and each becomes ready once. -/
theorem readiedBy_fresh {i : Instr ι} (hc : k.Control) (hcode : k.code k.cur = i :: rest)
    (hfork : k.ForkOnce (.exec : Action ι η)) :
    (k.readiedBy i).Nodup ∧
      ∀ t ∈ k.readiedBy i, t < k.sched.created ∧ t ∉ k.sched.readyList.items := by
  have hqueue : ∀ q n, ((k.sched.queue q).items.take n).Nodup ∧
      ∀ t ∈ (k.sched.queue q).items.take n,
        t < k.sched.created ∧ t ∉ k.sched.readyList.items := by
    intro q n
    refine ⟨(hc.sched.queue_nodup q).sublist (List.take_sublist _ _), fun t ht => ?_⟩
    obtain ⟨hlt, hblocked, _⟩ := hc.sched.queue_blocked t q (List.mem_of_mem_take ht)
    refine ⟨hlt, fun hready => ?_⟩
    have hstatus := ((hc.sched.mem_ready_iff t).mp hready).2
    rw [hblocked] at hstatus
    cases hstatus
  cases i with
  | call c =>
    cases c with
    | fork t func =>
      obtain ⟨hlt, hcreated⟩ : t < k.sched.created ∧ k.sched.status t = .justCreated := by
        simpa [ForkOnce, hcode] using hfork
      refine ⟨List.nodup_singleton t, fun u hu => ?_⟩
      obtain rfl := List.mem_singleton.mp hu
      refine ⟨hlt, fun hready => ?_⟩
      have hstatus := ((hc.sched.mem_ready_iff u).mp hready).2
      rw [hcreated] at hstatus
      cases hstatus
    | yield =>
      simp only [readiedBy]
      split
      · exact ⟨List.nodup_nil, by simp⟩
      · refine ⟨List.nodup_singleton _, fun u hu => ?_⟩
        obtain rfl := List.mem_singleton.mp hu
        have hrun := running_of_call hc hcode (by simp [Call.Allowed])
        exact ⟨hc.sched.current_lt, (hc.sched.current_free hrun).1⟩
    | v n | release l | wait c l => exact hqueue _ 1
    | signal c l =>
      simp only [readiedBy]
      split
      · exact hqueue _ 1
      · exact ⟨List.nodup_nil, by simp⟩
    | broadcast c l =>
      simp only [readiedBy]
      split
      · have h := hqueue (.cond c) (k.sched.queue (.cond c)).items.length
        rwa [List.take_length] at h
      · exact ⟨List.nodup_nil, by simp⟩
    | _ => exact ⟨List.nodup_nil, by simp [readiedBy]⟩
  | _ => exact ⟨List.nodup_nil, by simp [readiedBy]⟩

/-- Every step keeps the ready list sorted. -/
theorem arranged_step {arrivals : List ThreadPtr} (hc : k.Control) (hfork : k.ForkOnce a)
    (h : Arranged arrivals k.sched.priority k.sched.readyList)
    (hstep : k.step prog a = some k') :
    Arranged (arrivals ++ k.readied a) k'.sched.priority k'.sched.readyList := by
  cases a with
  | start cs =>
    simp only [step] at hstep
    split at hstep
    · cases hstep
      simpa [readied, setCode] using h
    · cases hstep
  | exec =>
    simp only [step] at hstep
    split at hstep
    · cases hstep
    · rename_i i rest hcode
      obtain ⟨hnodup, hfresh⟩ := readiedBy_fresh hc hcode hfork
      have hreadied : k.readied (.exec : Action ι η) = k.readiedBy i := by
        simp [readied, hcode]
      rw [hreadied, readyList_execInstr hstep, readyAfter]
      generalize hxs : (if findsNext i then k.sched.readyList.tail else k.sched.readyList) = xs
      have hsub : ∀ t ∈ NachosList.items xs, t ∈ k.sched.readyList.items := by
        intro t ht
        rw [← hxs] at ht
        split at ht
        · rw [NachosList.items, List.map_tail] at ht
          exact List.mem_of_mem_tail ht
        · exact ht
      have hxs' : Arranged arrivals k.sched.priority xs := by
        rw [← hxs]
        split
        · exact h.tail
        · exact h
      refine (hxs'.insertAll hnodup fun t ht hin => (hfresh t ht).2 (hsub t hin)).congr ?_
      intro t ht
      refine priority_execInstr hstep ?_ ?_
      · rcases mem_items_insertAll.mp ht with hin | hin
        · exact ((hc.sched.mem_ready_iff t).mp (hsub t hin)).1
        · exact (hfresh t hin).1
      · rintro p rfl rfl
        have hrun := running_of_call hc hcode (by simp [Call.Allowed])
        rcases mem_items_insertAll.mp ht with hin | hin
        · exact (hc.sched.current_free hrun).1 (hsub _ hin)
        · cases hin
  | interrupt d =>
    simp only [step] at hstep
    split at hstep
    · obtain ⟨r, _, rfl⟩ := Option.map_eq_some_iff.mp hstep
      simpa [readied, setCode] using h
    · cases hstep
  | timer =>
    simp only [step] at hstep
    split at hstep
    · cases hstep
      simpa [readied] using h
    · cases hstep

/-! ## Runs -/

/-- The threads that the steps of a run make ready, in order. -/
def arrivals (prog : Program ι σ η) (k : Kernel ι σ) (as : List (Action ι η)) :
    List ThreadPtr :=
  trace (step prog) readied k as

/-- The step is a scheduling decision: a `Yield`, or a `Sleep` that finds a
ready thread. -/
def Decides (k : Kernel ι σ) (a : Action ι η) : Prop :=
  match a, k.code k.cur with
  | .exec, .call .yield :: _ => True
  | .exec, .sleep :: _ => k.sched.readyList ≠ []
  | _, _ => False

/-- A thread that calls `Yield` is not better than the first ready thread. -/
def YieldsToBetter (k : Kernel ι σ) (a : Action ι η) : Prop :=
  match a, k.code k.cur, k.sched.readyList with
  | .exec, .call .yield :: _, e :: _ => k.sched.priority e.item ≤ k.sched.priority k.cur
  | _, _, _ => True

instance (k : Kernel ι σ) (a : Action ι η) : Decidable (k.YieldsToBetter a) :=
  decidable_of_iff
    ((match a, k.code k.cur, k.sched.readyList with
      | .exec, .call .yield :: _, e :: _ =>
          decide (k.sched.priority e.item ≤ k.sched.priority k.cur)
      | _, _, _ => true) = true)
    (by unfold YieldsToBetter; split <;> simp)

/-- The current thread runs, and it is the best runnable thread: no other has a
smaller priority value, and of those with the same value it has arrived
first. -/
def BestRuns (arrivals : List ThreadPtr) (s : Sched) : Prop :=
  s.status s.currentThread = .running ∧
    ∀ u, u < s.created → s.status u = .ready ∨ s.status u = .running → u ≠ s.currentThread →
      s.priority s.currentThread < s.priority u ∨
        s.priority s.currentThread = s.priority u ∧ ArrivedBefore arrivals s.currentThread u

/-- It suffices to look at the ready list. -/
theorem bestRuns_of_readyList {arrivals : List ThreadPtr} {s : Sched} (hs : s.Consistent)
    (hrun : s.status s.currentThread = .running)
    (h : ∀ u ∈ s.readyList.items, s.priority s.currentThread < s.priority u ∨
      s.priority s.currentThread = s.priority u ∧ ArrivedBefore arrivals s.currentThread u) :
    BestRuns arrivals s := by
  refine ⟨hrun, fun u hlt hu hne => ?_⟩
  rcases hu with hu | hu
  · exact h u ((hs.mem_ready_iff u).mpr ⟨hlt, hu⟩)
  · exact absurd (hs.running_current u hlt hu) hne

theorem bestRuns_sleep {arrivals : List ThreadPtr} {e : ListElement ThreadPtr}
    {es : NachosList ThreadPtr} (hc : (k.sleep rest).Control)
    (h : Arranged arrivals k.sched.priority k.sched.readyList)
    (hl : k.sched.readyList = e :: es) : BestRuns arrivals (k.sleep rest).sched := by
  have hsched : (k.sleep rest).sched = { k.sched with readyList := es }.run e.item := by
    simp only [sleep, Sched.findNextToRun, hl, NachosList.remove_cons]
    rfl
  have hs := hc.sched
  rw [hsched] at hs ⊢
  refine bestRuns_of_readyList hs (by simp) fun u hu => ?_
  rw [hl] at h
  exact h.head_best hu

theorem bestRuns_yield {arrivals : List ThreadPtr} {e : ListElement ThreadPtr}
    {es : NachosList ThreadPtr} (hc : (k.yield rest).Control)
    (h : Arranged arrivals k.sched.priority k.sched.readyList)
    (hl : k.sched.readyList = e :: es) (hcur : k.cur ∉ k.sched.readyList.items)
    (hbetter : k.sched.priority e.item ≤ k.sched.priority k.cur) :
    BestRuns (arrivals ++ [k.cur]) (k.yield rest).sched := by
  have hsched : (k.yield rest).sched =
      ({ k.sched with readyList := es }.readyToRun k.cur).run e.item := by
    simp only [yield, Sched.findNextToRun, hl, NachosList.remove_cons]
    rfl
  have hs := hc.sched
  rw [hsched] at hs ⊢
  rw [hl] at h hcur
  have hne : e.item ≠ k.cur := fun he => hcur (he ▸ List.mem_cons_self)
  refine bestRuns_of_readyList hs (by simp) fun u hu => ?_
  rcases NachosList.mem_items_sortedInsert.mp hu with rfl | hu
  · -- The caller has arrived last.
    rcases lt_or_eq_of_le hbetter with hlt | heq
    · exact Or.inl hlt
    · exact Or.inr ⟨heq, arrivedBefore_last (h.arrived _ List.mem_cons_self) hne⟩
  · exact (h.head_best hu).imp_right fun hu' => ⟨hu'.1, hu'.2.append hne⟩

/-- In every run whose steps all meet the condition on `Yield`, a decision runs
the best thread. -/
theorem best_thread_runs (prog : Program ι σ η) (initialValue : Nat → Int)
    (holding : Nat → Option ThreadPtr) (shared : σ) (as : List (Action ι η))
    (k k' : Kernel ι σ) (a : Action ι η)
    (hok : Along (step prog) (fun k a => k.ForkOnce a ∧ k.YieldsToBetter a)
      (init initialValue holding shared) as)
    (hrun : run (step prog) (init initialValue holding shared) as = some k)
    (ha : k.ForkOnce a ∧ k.YieldsToBetter a) (hdecides : k.Decides a)
    (hstep : k.step prog a = some k') :
    BestRuns (arrivals prog (init initialValue holding shared) as ++ k.readied a) k'.sched := by
  obtain ⟨hc, harranged⟩ : k.Control ∧
      Arranged (arrivals prog (init initialValue holding shared) as) k.sched.priority
        k.sched.readyList := by
    refine trace_invariant (h := [])
      (I := fun k arrivals => k.Control ∧ Arranged arrivals k.sched.priority k.sched.readyList)
      ?_ ⟨control_init _ _ _, ?_⟩ hok hrun
    · intro k1 arrivals a1 k2 ⟨hc1, h1⟩ hok1 hstep1
      exact ⟨control_step hc1 hok1.1 hstep1, arranged_step hc1 hok1.1 h1 hstep1⟩
    · exact ⟨by simp [init, Sched.init], List.Pairwise.nil, by simp [init, Sched.init]⟩
  have hc' := control_step hc ha.1 hstep
  unfold Decides at hdecides
  split at hdecides
  · rename_i rest hcode
    have hcalls := running_of_call hc hcode (by simp [Call.Allowed])
    simp only [step, hcode, execInstr, execCall, Option.some.injEq] at hstep
    subst hstep
    cases hl : k.sched.readyList with
    | nil =>
      have hsched : (k.yield rest).sched = k.sched := by
        simp only [yield, Sched.findNextToRun, hl, NachosList.remove_nil]
        rfl
      rw [hsched]
      refine bestRuns_of_readyList hc.sched hcalls fun u hu => ?_
      rw [hl] at hu
      cases hu
    | cons e es =>
      have hreadied : k.readied (.exec : Action ι η) = [k.cur] := by
        simp [readied, hcode, readiedBy, hl]
      rw [hreadied]
      refine bestRuns_yield hc' harranged hl (hc.sched.current_free hcalls).1 ?_
      simpa [YieldsToBetter, hcode, hl] using ha.2
  · rename_i rest hcode
    obtain ⟨e, es, hl⟩ := List.exists_cons_of_ne_nil hdecides
    simp only [step, hcode, execInstr, Option.some.injEq] at hstep
    subst hstep
    have hreadied : k.readied (.exec : Action ι η) = [] := by
      simp [readied, hcode, readiedBy]
    rw [hreadied, List.append_nil]
    exact bestRuns_sleep hc' harranged hl
  · cases hdecides

/-- A program whose threads do nothing. -/
def idleProgram : Program Unit Unit Empty where
  exec _ _ x := some (x, [])
  handler d _ := d.elim

/-- The main thread makes two threads with the same priority and yields. -/
def forkTwoYield : List (Action Unit Empty) :=
  .start [.newThread 12, .newThread 12, .fork 2 (), .fork 1 (), .yield] ::
    List.replicate 8 .exec

/-- The thread that was forked first runs. -/
theorem best_thread_runs_first : ∃ k k' : Kernel Unit Unit,
    run (step idleProgram) (init (fun _ => 0) (fun _ => none) ()) forkTwoYield = some k ∧
      k.step idleProgram .exec = some k' ∧ k'.cur = 2 ∧ BestRuns [2, 1, 0] k'.sched :=
  ⟨_, _, rfl, rfl, rfl, best_thread_runs idleProgram (fun _ => 0) (fun _ => none) ()
    forkTwoYield _ _ .exec (by decide) rfl (by decide) trivial rfl⟩

/-- The main thread takes the best priority, forks a thread and yields. -/
def forkWorseYield : List (Action Unit Empty) :=
  .start [.setPriority 0, .newThread 12, .fork 1 (), .yield] :: List.replicate 5 .exec

/-- The forked thread runs, although the main thread is runnable and better. -/
theorem yield_to_worse : ¬ ∀ (as : List (Action Unit Empty)) (k k' : Kernel Unit Unit)
    (a : Action Unit Empty),
    Along (step idleProgram) ForkOnce (init (fun _ => 0) (fun _ => none) ()) as →
    run (step idleProgram) (init (fun _ => 0) (fun _ => none) ()) as = some k →
    k.ForkOnce a → k.Decides a → k.step idleProgram a = some k' →
    BestRuns (arrivals idleProgram (init (fun _ => 0) (fun _ => none) ()) as ++ k.readied a)
      k'.sched := by
  intro hclaim
  obtain ⟨k, k', hrun, hfork, hdecides, hstep, hcur, hmain, hpriorities⟩ :
      ∃ k k' : Kernel Unit Unit,
        run (step idleProgram) (init (fun _ => 0) (fun _ => none) ()) forkWorseYield = some k ∧
          k.ForkOnce (.exec : Action Unit Empty) ∧ k.Decides (.exec : Action Unit Empty) ∧
          k.step idleProgram .exec = some k' ∧ k'.sched.currentThread = 1 ∧
          (0 < k'.sched.created ∧ k'.sched.status 0 = .ready) ∧
          k'.sched.priority 1 = 12 ∧ k'.sched.priority 0 = 0 :=
    ⟨_, _, rfl, by decide, trivial, rfl, rfl, by decide, by decide⟩
  have hbest := (hclaim forkWorseYield k k' .exec (by decide) hrun hfork hdecides hstep).2 0
    hmain.1 (Or.inl hmain.2)
  rw [hcur, hpriorities.1, hpriorities.2] at hbest
  rcases hbest (by decide) with hlt | ⟨heq, _⟩
  · exact absurd hlt (by decide)
  · exact absurd heq (by decide)

end Kernel

end Nachos.Threads

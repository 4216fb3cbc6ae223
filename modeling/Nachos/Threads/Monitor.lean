import Nachos.Threads.Condition
import Nachos.Threads.Protocol

/-!
# Monitors

A monitor is a lock, the conditions that are used under it, and the code that
takes the lock, waits and signals.  `Guarded` says what belongs to it.

`Monitor` is the state of a monitor: what each thread still has to do in it,
who is inside the lock, who waits on which condition, and the data.  Its steps
are atomic: `wait` leaves the lock and joins the queue, and `signal` takes the
longest-waiting thread from the queue.

In the kernel these are not single steps.  `Acquire` passes its semaphore and
sets `holdingThread` later, `Wait` releases the lock before it joins the
queue, and `Signal` wakes a thread only if it finds `holdingThread` set to the
caller.  `step_monitor` proves that every step of the kernel is a step of the
monitor nevertheless, as long as the code of the monitor is disciplined: it
releases, waits and signals only inside the lock.  An invariant of the monitor
that implies the discipline holds in every run of the kernel.
-/

namespace Nachos.Threads

open Function Lib

variable {ι σ η : Type}

/-! ## What belongs to a monitor -/

/-- The lock and the conditions of a monitor, and the instructions of the
program outside it, among them those that enter it. -/
structure Guarded (ι : Type) where
  lock : Nat
  cond : Nat → Bool
  entry : ι → Bool

namespace Guarded

variable (G : Guarded ι)

/-- All other code leaves the lock and the conditions alone. -/
def reserved : Reserved ι where
  sem s := s == .lock G.lock
  cond := G.cond
  entry := G.entry

/-- What an instruction is to the monitor.  A thread in the loop of `Acquire`
stands before the `Acquire`. -/
def visible : Instr ι → List (Instr ι)
  | .pLoop s => if s = .lock G.lock then [.call (.acquire G.lock)] else []
  | .call (.client i) => [.call (.client i)]
  | .call .finish => [.call .finish]
  | .call c => if G.reserved.outsideCall c then [] else [.call c]
  | _ => []

/-- What a code does in the monitor. -/
def code (is : List (Instr ι)) : List (Instr ι) := G.reserved.inner (is.flatMap G.visible)

variable {G} {i : Instr ι} {c : Call ι}

theorem code_append (is js : List (Instr ι)) :
    G.code (is ++ js) = G.reserved.join (is.flatMap G.visible) (G.code js) := by
  rw [code, List.flatMap_append, Reserved.inner_append]
  rfl

theorem code_hidden (hi : G.visible i = []) (is : List (Instr ι)) :
    G.code (i :: is) = G.code is := by
  rw [code, List.flatMap_cons, hi]
  rfl

/-- A visible instruction is outside the monitor, with all that follows, or it
is the next thing to do in the monitor. -/
theorem code_visible (hi : G.visible i = [i]) (is : List (Instr ι)) :
    G.code (i :: is) = [] ∧ G.code is = [] ∧ G.reserved.outside i = true ∨
      G.code (i :: is) = i :: G.code is := by
  have hcons : G.code (i :: is) = G.reserved.join [i] (G.code is) := by
    rw [← List.singleton_append, code_append]
    simp [hi]
  rw [hcons]
  exact G.reserved.join_singleton i (G.code is)

/-- A call that is not outside the monitor is the next thing to do in it. -/
theorem code_call (hc : G.reserved.outsideCall c = false) (is : List (Instr ι)) :
    G.code (.call c :: is) = .call c :: G.code is := by
  have hvisible : G.visible (.call c) = [.call c] := by
    cases c <;> simp [visible, hc]
  rcases code_visible hvisible is with ⟨_, _, hout⟩ | hcons
  · rw [Reserved.outside, hc] at hout
    cases hout
  · exact hcons

/-- A call outside the monitor, other than of the program or of `Finish`. -/
theorem code_outside (hc : G.reserved.outsideCall c = true) (hfinish : c ≠ .finish)
    (hclient : ∀ i, c ≠ .client i) (is : List (Instr ι)) :
    G.code (.call c :: is) = G.code is := by
  apply code_hidden
  cases c with
  | finish => exact absurd rfl hfinish
  | client i => exact absurd rfl (hclient i)
  | _ => simp [visible, hc]

/-- The `V` operations of a handler have nothing to do with the monitor. -/
theorem code_handled (ns : List Nat) (is : List (Instr ι)) :
    G.code (handled ns is) = G.code is := by
  induction ns with
  | nil => rfl
  | cons n ns ih => exact (code_hidden rfl _).trans ih

/-- Calls outside the monitor. -/
theorem code_calls_outside {cs : List (Call ι)}
    (h : ∀ c ∈ cs, G.reserved.outsideCall c = true) :
    G.code (synchCode (cs.map Instr.call)) = [] := by
  refine Reserved.inner_eq_nil fun i hi => ?_
  obtain ⟨j, hj, hi⟩ := List.mem_flatMap.mp hi
  obtain ⟨c, hc, rfl⟩ := List.mem_map.mp (List.mem_of_mem_filter hj)
  have hout := h c hc
  cases c <;> simp_all [visible, Reserved.outside]

/-- A thread that sleeps in the loop of a `P` stands before the `P`. -/
theorem flatMap_visible_tests {s : SemId} {cont : List (Instr ι)}
    (hi : i.tests = some (s, cont)) :
    G.visible i = G.visible (.pLoop s) ∧ cont.flatMap G.visible = [] := by
  rcases Instr.tests_cases hi with ⟨n, rfl, rfl, rfl⟩ | ⟨l, rfl, rfl, rfl⟩ | ⟨rfl, rfl⟩
  · exact ⟨rfl, rfl⟩
  · refine ⟨?_, rfl⟩
    by_cases hl : l = G.lock
    · simp [visible, reserved, Reserved.outsideCall, hl]
    · simp [visible, reserved, Reserved.outsideCall, hl]
  · exact ⟨rfl, rfl⟩

end Guarded

/-! ## The monitor -/

/-- The state of a monitor. -/
@[ext] structure Monitor (ι σ : Type) where
  /-- What each thread still has to do in the monitor. -/
  code : ThreadPtr → List (Instr ι)
  /-- The thread inside the lock. -/
  holder : Option ThreadPtr
  /-- The threads that wait on a condition, the longest-waiting first. -/
  waiting : Nat → List ThreadPtr
  shared : σ

namespace Monitor

/-- Replace what a thread still has to do. -/
def setCode (m : Monitor ι σ) (t : ThreadPtr) (is : List (Instr ι)) : Monitor ι σ :=
  { m with code := update m.code t is }

/-- What a thread may do next: everything but entering the lock happens
inside it. -/
def Allowed (G : Guarded ι) (m : Monitor ι σ) (t : ThreadPtr) : Instr ι → Prop
  | .call (.client _) => True
  | .call (.acquire _) => True
  | .call (.release _) => m.holder = some t
  | .call (.wait c l) => G.cond c = true ∧ l = G.lock ∧ m.holder = some t
  | .call (.signal _ l) => l = G.lock ∧ m.holder = some t
  | .call (.broadcast _ l) => l = G.lock ∧ m.holder = some t
  | _ => False

/-- Every thread does what it may do. -/
def Disciplined (G : Guarded ι) (m : Monitor ι σ) : Prop :=
  ∀ t i rest, m.code t = i :: rest → m.Allowed G t i

/-- One step of thread `t`. -/
inductive Step (G : Guarded ι) (prog : Program ι σ η) (t : ThreadPtr) :
    Monitor ι σ → Monitor ι σ → Prop where
  /-- The step leaves the monitor alone. -/
  | stay (m) : Step G prog t m m
  /-- The program executes an instruction outside the monitor. -/
  | enter {m i r} (s : Sched) (hcode : m.code t = []) (hi : G.entry i = true)
      (hs : s.currentThread = t) (hexec : prog.exec s i m.shared = some r) :
      Step G prog t m
        ({ m with shared := r.1 }.setCode t (G.code (synchCode (r.2.map Instr.call))))
  /-- The program executes an instruction in the monitor. -/
  | client {m i rest r} (s : Sched) (hcode : m.code t = .call (.client i) :: rest)
      (hs : s.currentThread = t) (hexec : prog.exec s i m.shared = some r) :
      Step G prog t m
        ({ m with shared := r.1 }.setCode t
          (G.reserved.join ((synchCode (r.2.map Instr.call)).flatMap G.visible) rest))
  | acquire {m rest} (hcode : m.code t = .call (.acquire G.lock) :: rest)
      (hfree : m.holder = none) (hawake : ∀ c, t ∉ m.waiting c) :
      Step G prog t m ({ m with holder := some t }.setCode t rest)
  | release {m rest} (hcode : m.code t = .call (.release G.lock) :: rest) :
      Step G prog t m ({ m with holder := none }.setCode t rest)
  | wait {m c rest} (hcode : m.code t = .call (.wait c G.lock) :: rest) :
      Step G prog t m
        ({ m with
            holder := none
            waiting := update m.waiting c (m.waiting c ++ [t])
          }.setCode t (.call (.acquire G.lock) :: rest))
  | signal {m c rest} (hcode : m.code t = .call (.signal c G.lock) :: rest) :
      Step G prog t m
        ({ m with waiting := update m.waiting c (m.waiting c).tail }.setCode t rest)
  | broadcast {m c rest} (hcode : m.code t = .call (.broadcast c G.lock) :: rest) :
      Step G prog t m ({ m with waiting := update m.waiting c [] }.setCode t rest)
  /-- A device changes the data. -/
  | device {m d r} (hexec : prog.handler d m.shared = some r) :
      Step G prog t m { m with shared := r.1 }

end Monitor

/-! ## The end of `Acquire` -/

/-- The loop of the `P` in `Acquire` is followed by the end of `Acquire`. -/
def Paired (l : Nat) : List (Instr ι) → Prop
  | [] => True
  | i :: is => (i = .pLoop (.lock l) → ∃ rest, is = .acquired l :: rest) ∧ Paired l is

theorem Paired.append {l : Nat} {is js : List (Instr ι)}
    (his : ∀ i ∈ is, i ≠ .pLoop (.lock l)) (hjs : Paired l js) : Paired l (is ++ js) := by
  induction is with
  | nil => exact hjs
  | cons i is ih =>
      refine ⟨fun hi => absurd hi (his i List.mem_cons_self), ih fun j hj => ?_⟩
      exact his j (List.mem_cons_of_mem i hj)

theorem paired_calls (l : Nat) {is : List (Instr ι)} (his : Own is) {js : List (Instr ι)}
    (hjs : Paired l js) : Paired l (is ++ js) := by
  refine .append (fun i hi e => ?_) hjs
  obtain ⟨c, hc⟩ := his i hi
  rw [e] at hc
  cases hc

namespace Synch

/-- A thread that has passed the `P` of `Acquire` is at the end of `Acquire`,
behind the `V` operations of handlers. -/
structure AcquireInv (l : Nat) (m : Synch ι σ) : Prop where
  paired : ∀ t, Paired l (m.todo t)
  passed : ∀ t, lockPhase m.log t l = .passed →
    ∃ ns rest, m.todo t = handled ns (.acquired l :: rest)

section Acquire

variable {m m' : Synch ι σ} {l : Nat} {t : ThreadPtr} {o : Label ι} {i : Instr ι}
  {is rest : List (Instr ι)}

theorem AcquireInv.notPassed (h : AcquireInv l m) (htodo : m.todo t = i :: rest)
    (hv : ∀ n, i ≠ .call (.v n)) (hi : i ≠ .acquired l) : lockPhase m.log t l ≠ .passed := by
  intro hpassed
  obtain ⟨ns, rest', hrest⟩ := h.passed t hpassed
  rcases handled_eq_cons (hrest.symm.trans htodo) with ⟨n, _, _, rfl, _⟩ | ⟨_, hcons⟩
  · exact hv n rfl
  · exact hi (List.cons.inj hcons).1.symm

/-- One thread goes on with `is`. -/
theorem AcquireInv.keep (h : AcquireInv l m) (htodo : m'.todo = update m.todo t is)
    (his : Paired l is) (hother : ∀ u, u ≠ t → lockPhase m'.log u l = lockPhase m.log u l)
    (hpassed : lockPhase m'.log t l = .passed →
      ∃ ns rest, is = handled ns (.acquired l :: rest)) : AcquireInv l m' where
  paired u := by
    rw [htodo]
    by_cases hu : u = t
    · rw [hu, update_self]
      exact his
    · rw [update_of_ne hu]
      exact h.paired u
  passed u hphase := by
    rw [htodo]
    by_cases hu : u = t
    · rw [hu] at hphase
      rw [hu, update_self]
      exact hpassed hphase
    · rw [hother u hu] at hphase
      rw [update_of_ne hu]
      exact h.passed u hphase

/-- A step of a thread that is not at the end of an `Acquire` of the lock, and
that passes no `P` of it. -/
theorem AcquireInv.go (h : AcquireInv l m) (htodo : m.todo t = i :: rest)
    (hv : ∀ n, i ≠ .call (.v n)) (hi : i ≠ .acquired l)
    (hother : ∀ u, u ≠ t → lockPhase m'.log u l = lockPhase m.log u l)
    (hself : lockPhase m'.log t l = .passed → lockPhase m.log t l = .passed)
    (htodo' : m'.todo = update m.todo t is) (his : Paired l is) : AcquireInv l m' := by
  refine h.keep htodo' his hother fun hpassed => ?_
  exact absurd (hself hpassed) (h.notPassed htodo hv hi)

/-- The code of a thread that sleeps in the loop of a `P`, and of one that has
passed it. -/
theorem paired_tests {s : SemId} {cont : List (Instr ι)} (hi : i.tests = some (s, cont))
    (h : Paired l (i :: rest)) :
    Paired l (.pLoop s :: cont ++ rest) ∧ Paired l (cont ++ rest) ∧
      (s = .lock l → ∃ rest', cont ++ rest = .acquired l :: rest') := by
  have hloop : Paired l (cont ++ rest) ∧
      (s = .lock l → ∃ rest', cont ++ rest = .acquired l :: rest') := by
    rcases Instr.tests_cases hi with ⟨n, rfl, rfl, rfl⟩ | ⟨l', rfl, rfl, rfl⟩ | ⟨rfl, rfl⟩
    · exact ⟨h.2, by simp⟩
    · refine ⟨⟨by simp, h.2⟩, ?_⟩
      intro hl
      cases hl
      exact ⟨rest, rfl⟩
    · refine ⟨h.2, ?_⟩
      intro hl
      exact h.1 (by rw [hl])
  refine ⟨⟨?_, hloop.1⟩, hloop⟩
  intro hs
  exact hloop.2 (Instr.pLoop.inj hs)

/-- A thread that has released the lock has not just passed its `P`. -/
theorem eq_passed_of_ite {p : Prop} [Decidable p] {ph : LockPhase}
    (hph : (if p then .out else ph) = LockPhase.passed) : ph = .passed := by
  by_cases hp : p
  · rw [if_pos hp] at hph
    cases hph
  · rwa [if_neg hp] at hph

/-- A `Signal` or a `Broadcast` is no part of a routine. -/
theorem ne_of_wakes {r : Nat × Nat × Nat} (hi : m.wakes i = some r) :
    (∀ n, i ≠ .call (.v n)) ∧ (∀ l, i ≠ .acquired l) ∧ ∀ c, i ≠ .waitAppend c := by
  rcases wakes_cases hi with rfl | rfl
  · simp
  · simp

theorem AcquireInv.step {prog : Program ι σ η} (h : AcquireInv l m)
    (hstep : Step prog t o m m') : AcquireInv l m' := by
  have hpaired := h.paired t
  cases hstep with
  | quiet => exact h
  | newThread => exact ⟨h.paired, h.passed⟩
  | @fork _ u func rest htodo hut hfresh =>
    rw [htodo] at hpaired
    have hcaller : AcquireInv l (m.setTodo t rest) :=
      h.go htodo (by simp) (by simp) (fun _ _ => rfl) id rfl hpaired.2
    refine hcaller.keep rfl ⟨by simp, by simp, trivial⟩ (fun _ _ => rfl) fun hpassed => ?_
    obtain ⟨ns, rest', hrest⟩ := h.passed u hpassed
    rw [hfresh] at hrest
    simp [handled] at hrest
  | finish htodo hrest =>
    exact h.go htodo (by simp) (by simp) (fun _ _ => rfl) id rfl trivial
  | client sch htodo hs hexec =>
    rw [htodo] at hpaired
    exact h.go htodo (by simp) (by simp) (fun _ _ => rfl) id rfl
      (paired_calls l (own_map_call _) hpaired.2)
  | @block _ i rest s cont htodo hi hv =>
    rw [htodo] at hpaired
    refine h.go htodo ?_ ?_ (fun _ _ => rfl) id rfl (paired_tests hi hpaired).1
    · rintro n rfl
      cases hi
    · rintro rfl
      cases hi
  | @pass _ i rest s cont htodo hi hv =>
    rw [htodo] at hpaired
    obtain ⟨_, hcont, hend⟩ := paired_tests hi hpaired
    by_cases hs : s = .lock l
    · obtain ⟨rest', hrest⟩ := hend hs
      refine h.keep rfl hcont (fun u hu => ?_) fun _ => ⟨[], rest', hrest⟩
      refine (lockPhase_append _ _ _ _).trans (foldl_next_eq ?_ _)
      simp [hs, LockPhase.next, Ne.symm hu]
    · have hphase := fun u => lockPhase_pass_of_ne hs m t u (cont ++ rest)
      refine h.go htodo ?_ ?_ (fun u _ => hphase u) (by rw [hphase]; exact id) rfl hcont
      · rintro n rfl
        cases hi
      · rintro rfl
        cases hi
  | @v _ n rest htodo =>
    rw [htodo] at hpaired
    have hphase : ∀ u, lockPhase ((m.v (.sem n)).setTodo t rest).log u l =
        lockPhase m.log u l := fun u => lockPhase_append _ _ _ _
    refine h.keep rfl hpaired.2 (fun u _ => hphase u) fun hpassed => ?_
    rw [hphase] at hpassed
    obtain ⟨ns, rest', hrest⟩ := h.passed t hpassed
    rcases handled_eq_cons (hrest.symm.trans htodo) with ⟨_, ns', _, _, hown⟩ | ⟨_, hcons⟩
    · exact ⟨ns', rest', hown⟩
    · cases hcons
  | @release _ l' rest htodo =>
    rw [htodo] at hpaired
    refine h.go htodo (by simp) (by simp) (fun u hu => ?_) ?_ rfl hpaired.2
    · rw [lockPhase_release, if_neg fun hc => hu hc.1.symm]
    · rw [lockPhase_release]
      exact eq_passed_of_ite
  | @wait _ c l' rest htodo =>
    rw [htodo] at hpaired
    refine h.go htodo (by simp) (by simp) (fun u hu => ?_) ?_ rfl
      ⟨by simp, by simp, by simp, hpaired.2⟩
    · rw [lockPhase_wait, if_neg fun hc => hu hc.1.symm]
    · rw [lockPhase_wait]
      exact eq_passed_of_ite
  | @wake _ i rest c l' n htodo hi hh =>
    rw [htodo] at hpaired
    have hphase := fun u => lockPhase_wake m t u c n l rest
    obtain ⟨hv, hacquired, _⟩ := ne_of_wakes hi
    exact h.go htodo hv (hacquired l) (fun u _ => hphase u) (by rw [hphase]; exact id) rfl hpaired.2
  | @noWake _ i rest c l' n htodo hi hh =>
    rw [htodo] at hpaired
    obtain ⟨hv, hacquired, _⟩ := ne_of_wakes hi
    exact h.go htodo hv (hacquired l) (fun _ _ => rfl) id rfl hpaired.2
  | @acquired _ l' rest htodo =>
    rw [htodo] at hpaired
    refine h.keep rfl hpaired.2 (fun u hu => ?_) fun hpassed => ?_
    · refine (lockPhase_append _ _ _ _).trans (foldl_next_eq ?_ _)
      simp [LockPhase.next, Ne.symm hu]
    · by_cases hl : l' = l
      · have hheld := (lockPhase_append m.log [.acquired t l'] t l).symm.trans hpassed
        simp [LockPhase.next, hl] at hheld
      · have hold := (lockPhase_append m.log [.acquired t l'] t l).symm.trans hpassed
        simp only [List.foldl_cons, List.foldl_nil, LockPhase.next, hl, and_false, if_false]
          at hold
        exact absurd hold (h.notPassed htodo (by simp) (by simpa using hl))
  | @waitAppend _ c rest htodo =>
    rw [htodo] at hpaired
    have hphase := fun u => lockPhase_append m.log [.join t c] u l
    exact h.go htodo (by simp) (by simp) (fun u _ => hphase u)
      (fun hpassed => (hphase t).symm.trans hpassed) rfl hpaired.2
  | waitReturn htodo =>
    rw [htodo] at hpaired
    exact h.go htodo (by simp) (by simp) (fun _ _ => rfl) id rfl hpaired.2
  | start cs htodo =>
    refine h.keep rfl ?_ (fun _ _ => rfl) fun hpassed => ?_
    · rw [← List.append_nil (synchCode _)]
      exact paired_calls l (own_map_call cs) trivial
    · obtain ⟨ns, rest, hrest⟩ := h.passed t hpassed
      rw [htodo] at hrest
      simp [handled] at hrest
  | @interrupt _ d r hhandler =>
    refine h.keep rfl ?_ (fun _ _ => rfl) fun hpassed => ?_
    · exact .append (by simp) hpaired
    · obtain ⟨ns, rest, hrest⟩ := h.passed t hpassed
      refine ⟨r.2 ++ ns, rest, ?_⟩
      rw [hrest]
      simp [handled]

end Acquire

/-! ## Every step is a step of the monitor -/

/-- The monitor in a state of the synchronization layer. -/
def monitor (G : Guarded ι) (m : Synch ι σ) : Monitor ι σ where
  code t := G.code (m.todo t)
  holder := (List.range m.created).find? fun t => decide (lockPhase m.log t G.lock ≠ .out)
  waiting c := if G.cond c then Threads.waiting m.log c else []
  shared := m.shared

section Refine

variable {G : Guarded ι} {prog : Program ι σ η} {m m' : Synch ι σ} {t : ThreadPtr}
  {o : Label ι} {i : Instr ι} {is rest : List (Instr ι)} {cont : List (Instr ι)}

theorem holder_eq_some (h : LockInv G.lock m) :
    (m.monitor G).holder = some t ↔ lockPhase m.log t G.lock ≠ .out := by
  constructor
  · intro hsome
    simpa using List.find?_some hsome
  · intro hne
    have hlt : t < m.created := by
      by_contra hle
      exact hne (h.fresh t (Nat.not_lt.mp hle))
    show List.find? _ _ = some t
    cases hfind : (List.range m.created).find?
        fun u => decide (lockPhase m.log u G.lock ≠ .out) with
    | none =>
      have hall := List.find?_eq_none.mp hfind t (List.mem_range.mpr hlt)
      simp [hne] at hall
    | some u =>
      have hu : lockPhase m.log u G.lock ≠ .out := by
        simpa using List.find?_some hfind
      by_contra hut
      exact hu (h.only hne fun e => hut (by rw [e]))

theorem holder_eq_none (h : LockInv G.lock m) (hout : ∀ u, lockPhase m.log u G.lock = .out) :
    (m.monitor G).holder = none := by
  cases hholder : (m.monitor G).holder with
  | none => rfl
  | some u => exact absurd (hout u) ((holder_eq_some h).mp hholder)

/-- The same threads are inside. -/
theorem holder_congr (h : LockInv G.lock m) (h' : LockInv G.lock m')
    (hin : ∀ u, lockPhase m'.log u G.lock ≠ .out ↔ lockPhase m.log u G.lock ≠ .out) :
    (m'.monitor G).holder = (m.monitor G).holder := by
  apply Option.ext
  intro u
  rw [holder_eq_some h', holder_eq_some h, hin]

theorem code_update (htodo : m'.todo = update m.todo t is) :
    (m'.monitor G).code = update (m.monitor G).code t (G.code is) := by
  funext u
  show G.code (m'.todo u) = _
  rw [htodo]
  by_cases hu : u = t
  · rw [hu, update_self, update_self]
  · rw [update_of_ne hu, update_of_ne hu]
    rfl

/-- A step after which the thread has the same to do in the monitor. -/
theorem step_stay (h : LockInv G.lock m) (h' : LockInv G.lock m')
    (htodo : m'.todo = update m.todo t is) (his : G.code is = G.code (m.todo t))
    (hin : ∀ u, lockPhase m'.log u G.lock ≠ .out ↔ lockPhase m.log u G.lock ≠ .out)
    (hwaiting : ∀ c, G.cond c = true → Threads.waiting m'.log c = Threads.waiting m.log c)
    (hshared : m'.shared = m.shared) :
    Monitor.Step G prog t (m.monitor G) (m'.monitor G) := by
  have hsame : m'.monitor G = m.monitor G := by
    ext1
    · rw [code_update htodo, his]
      exact update_eq_self t _
    · exact holder_congr h h' hin
    · funext c
      show (if G.cond c then Threads.waiting m'.log c else []) = _
      by_cases hc : G.cond c = true
      · rw [if_pos hc, hwaiting c hc]
        exact (if_pos hc).symm
      · rw [if_neg hc]
        exact (if_neg hc).symm
    · exact hshared
  rw [hsame]
  exact .stay _

/-- No thread is inside `Wait` before the joining when another instruction is
executed. -/
theorem waiting_eq_queue (hw : ∀ c, WaitInv c m)
    (hatomic : ∀ u c, .waitAppend c ∈ m.todo u → ∃ rest, m.todo t = .waitAppend c :: rest)
    (htodo : m.todo t = i :: rest) (hi : ∀ c, i ≠ .waitAppend c) (c : Nat) :
    Threads.waiting m.log c = m.queue (.cond c) := by
  refine (hw c).joined fun u hmem => ?_
  obtain ⟨rest', hrest⟩ := hatomic u c hmem
  rw [htodo] at hrest
  exact hi c (List.cons.inj hrest).1

/-- In a disciplined monitor a thread that calls `Release`, `Wait`, `Signal` or
`Broadcast` holds the lock. -/
theorem holds_of_holder (h : LockInv G.lock m) (hacq : AcquireInv G.lock m)
    (htodo : m.todo t = i :: rest) (hv : ∀ n, i ≠ .call (.v n)) (hi : i ≠ .acquired G.lock)
    (hholder : (m.monitor G).holder = some t) : Holds m.log t G.lock := by
  have hne := (holder_eq_some h).mp hholder
  have hnot := hacq.notPassed htodo hv hi
  unfold Holds
  cases hphase : lockPhase m.log t G.lock with
  | out => exact absurd hphase hne
  | passed => exact absurd hphase hnot
  | held => rfl

/-- The lock of the monitor is released only by the thread that holds it. -/
theorem disciplined_of_monitor (h : LockInv G.lock m) (hacq : AcquireInv G.lock m)
    (hdisc : (m.monitor G).Disciplined G) (hstep : Step prog t o m m') :
    Disciplined G.lock m t o := by
  have hcode : ∀ {c rest}, G.reserved.outsideCall c = false → m.todo t = .call c :: rest →
      (m.monitor G).code t = .call c :: G.code rest :=
    fun hc htodo => (congrArg G.code htodo).trans (G.code_call hc _)
  constructor
  · intro ho
    rw [ho] at hstep
    obtain ⟨rest, htodo⟩ := todo_of_exec hstep rfl
    have hcode := hcode (by simp [Guarded.reserved, Reserved.outsideCall]) htodo
    exact holds_of_holder h hacq htodo (by simp) (by simp) (hdisc t _ _ hcode)
  · intro c ho
    rw [ho] at hstep
    obtain ⟨rest, htodo⟩ := todo_of_exec hstep rfl
    have hcode := hcode (by simp [Guarded.reserved, Reserved.outsideCall]) htodo
    exact holds_of_holder h hacq htodo (by simp) (by simp) (hdisc t _ _ hcode).2.2

/-- A thread passes the `P` of the lock. -/
theorem step_acquire (h : LockInv G.lock m)
    (h' : LockInv G.lock ((m.pass t (.lock G.lock)).setTodo t (cont ++ rest)))
    (hcode : G.code (m.todo t) = .call (.acquire G.lock) :: G.code rest)
    (hcont : cont.flatMap G.visible = []) (hv : m.value (.lock G.lock) ≠ 0)
    (hawake : ∀ c, t ∉ Threads.waiting m.log c) :
    Monitor.Step G prog t (m.monitor G)
      (((m.pass t (.lock G.lock)).setTodo t (cont ++ rest)).monitor G) := by
  have hout := (h.out_of_value hv).2
  have hrest : G.code (cont ++ rest) = G.code rest := by
    rw [Guarded.code, List.flatMap_append, hcont]
    rfl
  have hself : lockPhase ((m.pass t (.lock G.lock)).setTodo t (cont ++ rest)).log t G.lock ≠
      .out := by
    show lockPhase (m.log ++ [.pDone t (.lock G.lock)]) t G.lock ≠ .out
    rw [lockPhase_append]
    simp [LockPhase.next]
  have hstep : ((m.pass t (.lock G.lock)).setTodo t (cont ++ rest)).monitor G =
      { m.monitor G with holder := some t }.setCode t (G.code rest) := by
    ext1
    · rw [code_update rfl, hrest]
      rfl
    · exact (holder_eq_some h').mpr hself
    · funext c
      show (if G.cond c then Threads.waiting (m.log ++ [.pDone t (.lock G.lock)]) c else []) = _
      rw [waiting_append]
      rfl
    · rfl
  rw [hstep]
  refine .acquire hcode (holder_eq_none h hout) fun c hmem => ?_
  by_cases hc : G.cond c = true
  · exact hawake c (by simpa [monitor, hc] using hmem)
  · simp [monitor, hc] at hmem

/-- The thread inside the lock releases it. -/
theorem step_release (h : LockInv G.lock m)
    (h' : LockInv G.lock ((m.release t G.lock).setTodo t rest))
    (hheld : Holds m.log t G.lock)
    (hcode : G.code (m.todo t) = .call (.release G.lock) :: G.code rest) :
    Monitor.Step G prog t (m.monitor G)
      (((m.release t G.lock).setTodo t rest).monitor G) := by
  have hstep : ((m.release t G.lock).setTodo t rest).monitor G =
      { m.monitor G with holder := none }.setCode t (G.code rest) := by
    ext1
    · exact code_update rfl
    · refine holder_eq_none h' fun u => ?_
      rw [lockPhase_release]
      exact h.out_of_release hheld u
    · funext c
      show (if G.cond c then Threads.waiting ((m.release t G.lock).setTodo t rest).log c
        else []) = _
      rw [log_release, waiting_append]
      rfl
    · rfl
  rw [hstep]
  exact .release hcode

/-- The thread inside the lock calls `Wait`. -/
theorem step_wait {c : Nat} (h : LockInv G.lock m)
    (h' : LockInv G.lock (((m.record [.waitRelease t c]).release t G.lock).setTodo t
      (.waitAppend c :: .call (.acquire G.lock) :: .waitReturn c G.lock :: rest)))
    (hheld : Holds m.log t G.lock) (hc : G.cond c = true)
    (hcode : G.code (m.todo t) = .call (.wait c G.lock) :: G.code rest) :
    Monitor.Step G prog t (m.monitor G)
      ((((m.record [.waitRelease t c]).release t G.lock).setTodo t
        (.waitAppend c :: .call (.acquire G.lock) :: .waitReturn c G.lock :: rest)).monitor
          G) := by
  have hafter : G.code (.waitAppend c :: .call (.acquire G.lock) :: .waitReturn c G.lock ::
      rest) = .call (.acquire G.lock) :: G.code rest := by
    rw [G.code_hidden rfl, G.code_call (by simp [Guarded.reserved, Reserved.outsideCall]),
      G.code_hidden rfl]
  have hstep : (((m.record [.waitRelease t c]).release t G.lock).setTodo t
      (.waitAppend c :: .call (.acquire G.lock) :: .waitReturn c G.lock :: rest)).monitor G =
        { m.monitor G with
            holder := none
            waiting := update (m.monitor G).waiting c ((m.monitor G).waiting c ++ [t])
          }.setCode t (.call (.acquire G.lock) :: G.code rest) := by
    ext1
    · rw [code_update rfl, hafter]
      rfl
    · refine holder_eq_none h' fun u => ?_
      rw [lockPhase_wait]
      exact h.out_of_release hheld u
    · funext c'
      show (if G.cond c' then Threads.waiting (((m.record [.waitRelease t c]).release t
        G.lock).setTodo t _).log c' else []) = update (m.monitor G).waiting c _ c'
      rw [log_wait, waiting_append]
      by_cases hcc : c' = c
      · rw [hcc, update_self, if_pos hc]
        simp [Event.waitingNext, monitor, hc]
      · rw [update_of_ne hcc]
        simp [Event.waitingNext, monitor, Ne.symm hcc]
    · rfl
  rw [hstep]
  exact .wait hcode

/-- The threads that wait after a `Signal` or a `Broadcast`. -/
theorem waiting_wake {c n : Nat} (hc : G.cond c = true)
    (hqueue : Threads.waiting m.log c = m.queue (.cond c)) :
    (((m.wake c n).setTodo t rest).monitor G).waiting =
      update (m.monitor G).waiting c (((m.monitor G).waiting c).drop n) := by
  funext c'
  show (if G.cond c' then Threads.waiting (m.log ++
    ((m.queue (.cond c)).take n).map (.wake · c)) c' else []) = _
  rw [waiting_append, ← hqueue]
  by_cases hcc : c' = c
  · rw [hcc, update_self, if_pos hc, foldl_waitingNext_wake]
    simp [monitor, hc]
  · rw [update_of_ne hcc, foldl_waitingNext_other (Ne.symm hcc)]
    rfl

/-- The thread inside the lock calls `Signal` or `Broadcast`. -/
theorem step_wake {c n : Nat} (h : LockInv G.lock m)
    (h' : LockInv G.lock ((m.wake c n).setTodo t rest)) (hc : G.cond c = true)
    (hi : m.wakes i = some (c, G.lock, n)) (hcode : G.code (m.todo t) = i :: G.code rest)
    (hqueue : Threads.waiting m.log c = m.queue (.cond c)) :
    Monitor.Step G prog t (m.monitor G) (((m.wake c n).setTodo t rest).monitor G) := by
  have hstep : ((m.wake c n).setTodo t rest).monitor G =
      { m.monitor G with
          waiting := update (m.monitor G).waiting c (((m.monitor G).waiting c).drop n)
        }.setCode t (G.code rest) := by
    ext1
    · exact code_update rfl
    · refine holder_congr h h' fun u => ?_
      rw [lockPhase_wake]
    · exact waiting_wake hc hqueue
    · rfl
  rw [hstep]
  rcases wakes_cases hi with rfl | rfl
  · cases hi
    rw [List.drop_one]
    exact .signal hcode
  · cases hi
    have hall : ((m.monitor G).waiting c).drop (m.queue (.cond c)).length = [] := by
      simp [monitor, hc, hqueue]
    rw [hall]
    exact .broadcast hcode

/-- A `Signal` or a `Broadcast` is on another condition, or it is done inside
the lock of the monitor. -/
theorem wakes_monitor {c l n : Nat} (hdisc : (m.monitor G).Disciplined G)
    (htodo : m.todo t = i :: rest) (hi : m.wakes i = some (c, l, n)) :
    G.cond c = false ∧ G.code (m.todo t) = G.code rest ∨
      G.cond c = true ∧ G.code (m.todo t) = i :: G.code rest ∧ l = G.lock ∧
        (m.monitor G).holder = some t := by
  cases hc : G.cond c with
  | false =>
    refine Or.inl ⟨rfl, ?_⟩
    rw [htodo]
    rcases wakes_cases hi with rfl | rfl
    all_goals
      exact G.code_outside (by simp [Guarded.reserved, Reserved.outsideCall, hc]) (by simp)
        (by simp) rest
  | true =>
    refine Or.inr ⟨rfl, ?_⟩
    have hcode : G.code (m.todo t) = i :: G.code rest := by
      rw [htodo]
      rcases wakes_cases hi with rfl | rfl
      all_goals exact G.code_call (by simp [Guarded.reserved, Reserved.outsideCall, hc]) rest
    have hallowed := hdisc t _ _ hcode
    refine ⟨hcode, ?_⟩
    rcases wakes_cases hi with rfl | rfl
    · exact hallowed
    · exact hallowed

/-- A `Fork` outside the monitor. -/
theorem step_fork {u : ThreadPtr} {func : ι} (htodo : m.todo t = .call (.fork u func) :: rest)
    (hfresh : m.todo u = []) (hc : G.reserved.outsideCall (.fork u func) = true) :
    Monitor.Step G prog t (m.monitor G)
      (((m.setTodo t rest).setTodo u [.call (.client func), .call .finish]).monitor G) := by
  have hcalls : ∀ c ∈ [Call.client func, .finish], G.reserved.outsideCall c = true := by
    simpa using ⟨hc, rfl⟩
  have hnew : G.code [.call (.client func), .call .finish] = [] :=
    G.code_calls_outside hcalls
  have hcaller : G.code rest = (m.monitor G).code t := by
    show _ = G.code (m.todo t)
    rw [htodo, G.code_outside hc (by simp) (by simp)]
  have hu : (m.monitor G).code u = [] := by
    show G.code (m.todo u) = []
    rw [hfresh]
    rfl
  have hsame : ((m.setTodo t rest).setTodo u [.call (.client func), .call .finish]).monitor G =
      m.monitor G := by
    ext1
    · rw [code_update rfl, code_update rfl, hcaller, hnew, update_eq_self, ← hu, update_eq_self]
    · rfl
    · rfl
    · rfl
  rw [hsame]
  exact .stay _

/-- A thread executes code of the program. -/
theorem step_client {i : ι} {r : σ × List (Call ι)} (sch : Sched)
    (htodo : m.todo t = .call (.client i) :: rest) (hs : sch.currentThread = t)
    (hexec : prog.exec sch i m.shared = some r) :
    Monitor.Step G prog t (m.monitor G)
      (({ m with shared := r.1 }.setTodo t (synchCode (r.2.map Instr.call) ++ rest)).monitor
        G) := by
  have hmonitor : ({ m with shared := r.1 }.setTodo t
      (synchCode (r.2.map Instr.call) ++ rest)).monitor G =
        { m.monitor G with shared := r.1 }.setCode t
          (G.code (synchCode (r.2.map Instr.call) ++ rest)) := by
    ext1
    · exact code_update rfl
    · rfl
    · rfl
    · rfl
  rw [hmonitor, G.code_append]
  rcases G.code_visible (i := .call (.client i)) rfl rest with ⟨hnil, hrest, hi⟩ | hcons
  · rw [hrest]
    exact .enter sch (show G.code (m.todo t) = [] from htodo ▸ hnil) hi hs hexec
  · exact .client sch (show G.code (m.todo t) = _ from htodo ▸ hcons) hs hexec

/-- The test of the lock is the call of `Acquire`, also when it is repeated. -/
theorem code_of_tests (hi : i.tests = some (.lock G.lock, cont)) (rest : List (Instr ι)) :
    G.code (i :: rest) = .call (.acquire G.lock) :: G.code rest := by
  have hvisible : G.visible i = G.visible (.call (.acquire G.lock)) := by
    rw [(G.flatMap_visible_tests hi).1]
    simp [Guarded.visible, Guarded.reserved, Reserved.outsideCall]
  rw [← G.code_call (by simp [Guarded.reserved, Reserved.outsideCall]), Guarded.code,
    Guarded.code, List.flatMap_cons, List.flatMap_cons, hvisible]

/-- A thread passes the test of a semaphore or of another lock. -/
theorem step_pass {s : SemId} (h : LockInv G.lock m)
    (h' : LockInv G.lock ((m.pass t s).setTodo t (cont ++ rest))) (htodo : m.todo t = i :: rest)
    (hi : i.tests = some (s, cont)) (hs : s ≠ .lock G.lock) :
    Monitor.Step G prog t (m.monitor G) (((m.pass t s).setTodo t (cont ++ rest)).monitor G) := by
  obtain ⟨hsame, hcont⟩ := G.flatMap_visible_tests hi
  have hhidden : G.visible i = [] := by
    rw [hsame]
    simp [Guarded.visible, hs]
  refine step_stay h h' rfl ?_ (fun u => by rw [lockPhase_pass_of_ne hs])
    (fun c _ => waiting_append _ _ _) rfl
  rw [htodo, G.code_hidden hhidden, Guarded.code, List.flatMap_append, hcont]
  rfl

/-- A `Wait` outside the monitor. -/
theorem step_wait_outside {c l' : Nat} (h : LockInv G.lock m)
    (h' : LockInv G.lock (((m.record [.waitRelease t c]).release t l').setTodo t
      (.waitAppend c :: .call (.acquire l') :: .waitReturn c l' :: rest)))
    (htodo : m.todo t = .call (.wait c l') :: rest)
    (hc : G.reserved.outsideCall (.wait c l') = true) :
    Monitor.Step G prog t (m.monitor G) ((((m.record [.waitRelease t c]).release t l').setTodo t
      (.waitAppend c :: .call (.acquire l') :: .waitReturn c l' :: rest)).monitor G) := by
  have hboth : G.cond c = false ∧ l' ≠ G.lock := by
    simpa [Guarded.reserved, Reserved.outsideCall] using hc
  refine step_stay h h' rfl ?_ (fun u => ?_) (fun c' hc' => ?_) rfl
  · rw [htodo, G.code_outside hc (by simp) (by simp), G.code_hidden rfl,
      G.code_outside (by simp [Guarded.reserved, Reserved.outsideCall, hboth.2]) (by simp)
        (by simp), G.code_hidden rfl]
  · rw [lockPhase_wait, if_neg fun hc => hboth.2 hc.2]
  · have hne : c ≠ c' := by
      rintro rfl
      rw [hboth.1] at hc'
      cases hc'
    rw [log_wait, waiting_append]
    simp [Event.waitingNext, hne]

/-- A thread sets `holdingThread`.  If the lock is that of the monitor, it is inside
already. -/
theorem step_acquired {l' : Nat} (h : LockInv G.lock m)
    (h' : LockInv G.lock (({ m with holdingThread := update m.holdingThread l' (some (m.address t))
      }.record [.acquired t l']).setTodo t rest))
    (htodo : m.todo t = .acquired l' :: rest) :
    Monitor.Step G prog t (m.monitor G)
      ((({ m with holdingThread := update m.holdingThread l' (some (m.address t))
        }.record [.acquired t l']).setTodo t rest).monitor G) := by
  have hcov := h.covered t
  rw [htodo] at hcov
  refine step_stay h h' rfl ?_ (fun u => ?_) (fun c _ => waiting_append _ _ _) rfl
  · rw [htodo]
    exact (G.code_hidden rfl rest).symm
  · have hlog := lockPhase_append m.log [.acquired t l'] u G.lock
    show lockPhase (m.log ++ [.acquired t l']) u G.lock ≠ .out ↔ _
    rw [hlog]
    by_cases hu : t = u ∧ l' = G.lock
    · have hpassed := hcov.1 hu.2
      rw [hu.1] at hpassed
      simp [LockPhase.next, hu, hpassed]
    · simp [LockPhase.next, hu]

/-- The handler of a device. -/
theorem step_interrupt {d : η} {r : σ × List Nat} (hhandler : prog.handler d m.shared = some r) :
    Monitor.Step G prog t (m.monitor G) (({ m with shared := r.1 }.setTodo t
      (r.2.map (fun n => Instr.call (.v n)) ++ m.todo t)).monitor G) := by
  have hmonitor : ({ m with shared := r.1 }.setTodo t
      (r.2.map (fun n => Instr.call (.v n)) ++ m.todo t)).monitor G =
        { m.monitor G with shared := r.1 } := by
    ext1
    · rw [code_update rfl, ← handled, G.code_handled]
      exact update_eq_self t _
    · rfl
    · rfl
    · rfl
  rw [hmonitor]
  exact .device hhandler

/-- Every step is a step of a disciplined monitor. -/
theorem step_monitor (h : LockInv G.lock m) (h' : LockInv G.lock m')
    (hacq : AcquireInv G.lock m) (hd : m.Dispatched t o) (hw : ∀ c, WaitInv c m)
    (hatomic : ∀ u c, .waitAppend c ∈ m.todo u → ∃ rest, m.todo t = .waitAppend c :: rest)
    (hdisc : (m.monitor G).Disciplined G)
    (hstart : ∀ cs, o = .start cs → ∀ c ∈ cs, G.reserved.outsideCall c = true)
    (hstep : Step prog t o m m') : Monitor.Step G prog t (m.monitor G) (m'.monitor G) := by
  -- A call that is not outside the monitor has to be allowed.
  have hallowed : ∀ c rest, m.todo t = .call c :: rest → G.reserved.outsideCall c = false →
      G.code (m.todo t) = .call c :: G.code rest ∧ (m.monitor G).Allowed G t (.call c) := by
    intro c rest htodo hc
    have hcode : G.code (m.todo t) = .call c :: G.code rest := by
      rw [htodo, G.code_call hc]
    exact ⟨hcode, hdisc t _ _ hcode⟩
  cases hstep with
  | quiet => exact .stay _
  | newThread m ho =>
    exact step_stay h h' (update_eq_self t _).symm rfl (fun _ => Iff.rfl) (fun _ _ => rfl) rfl
  | @fork _ u func rest htodo hut hfresh =>
    by_cases hc : G.reserved.outsideCall (.fork u func) = true
    · exact step_fork htodo hfresh hc
    · exact absurd (hallowed _ _ htodo (eq_false_of_ne_true hc)).2 id
  | @finish _ rest htodo hrest =>
    rcases G.code_visible (i := .call .finish) rfl rest with ⟨hnil, _, _⟩ | hcons
    · refine step_stay h h' rfl ?_ (fun _ => Iff.rfl) (fun _ _ => rfl) rfl
      rw [htodo, hnil]
      rfl
    · exact absurd (hdisc t _ _ (show G.code (m.todo t) = _ from htodo ▸ hcons)) id
  | client sch htodo hs hexec => exact step_client sch htodo hs hexec
  | @block _ i rest s cont htodo hi hv =>
    obtain ⟨hsame, hcont⟩ := G.flatMap_visible_tests hi
    refine step_stay h h' rfl ?_ (fun _ => Iff.rfl) (fun _ _ => rfl) rfl
    rw [htodo, Guarded.code, Guarded.code, List.cons_append, List.flatMap_cons,
      List.flatMap_append, hcont, List.flatMap_cons, hsame]
    rfl
  | @pass _ i rest s cont htodo hi hv =>
    by_cases hs : s = .lock G.lock
    · subst hs
      have hcode : G.code (m.todo t) = .call (.acquire G.lock) :: G.code rest := by
        rw [htodo, code_of_tests hi]
      refine step_acquire h h' hcode (G.flatMap_visible_tests hi).2 hv fun c => ?_
      have hne : ∀ c, i ≠ .waitAppend c := by
        rintro c rfl
        cases hi
      rw [waiting_eq_queue hw hatomic htodo hne]
      exact hd.free i rfl (isAwake_of_tests hi) _
    · exact step_pass h h' htodo hi hs
  | @v _ n rest htodo =>
    refine step_stay h h' rfl ?_ (fun u => ?_) (fun c _ => waiting_append _ _ _) rfl
    · rw [htodo]
      exact (G.code_hidden rfl rest).symm
    · exact iff_of_eq (congrArg (· ≠ LockPhase.out) (lockPhase_append _ _ _ _))
  | @release _ l' rest htodo =>
    by_cases hl : l' = G.lock
    · subst hl
      obtain ⟨hcode, hholder⟩ := hallowed _ _ htodo
        (by simp [Guarded.reserved, Reserved.outsideCall])
      exact step_release h h'
        (holds_of_holder h hacq htodo (by simp) (by simp) hholder) hcode
    · refine step_stay h h' rfl ?_ (fun u => ?_) (fun c _ => ?_) rfl
      · rw [htodo, G.code_outside (by simp [Guarded.reserved, Reserved.outsideCall, hl])
          (by simp) (by simp)]
      · rw [lockPhase_release, if_neg fun hc => hl hc.2]
      · rw [log_release]
        exact waiting_append _ _ _
  | @wait _ c l' rest htodo =>
    by_cases hc : G.reserved.outsideCall (.wait c l') = true
    · exact step_wait_outside h h' htodo hc
    · obtain ⟨hcode, hcond, rfl, hholder⟩ := hallowed _ _ htodo (eq_false_of_ne_true hc)
      exact step_wait h h'
        (holds_of_holder h hacq htodo (by simp) (by simp) hholder) hcond hcode
  | @wake _ i rest c l' n htodo hi hh =>
    rcases wakes_monitor hdisc htodo hi with ⟨hc, hhidden⟩ | ⟨hc, hcode, hl, _⟩
    · refine step_stay h h' rfl hhidden.symm (fun u => ?_) (fun c' hc' => ?_) rfl
      · rw [lockPhase_wake]
      · have hcc : c ≠ c' := by
          rintro rfl
          rw [hc] at hc'
          cases hc'
        exact (waiting_append _ _ _).trans (foldl_waitingNext_other hcc _ _)
    · subst hl
      exact step_wake h h' hc hi hcode
        (waiting_eq_queue hw hatomic htodo (ne_of_wakes hi).2.2 c)
  | @noWake _ i rest c l' n htodo hi hh =>
    rcases wakes_monitor hdisc htodo hi with ⟨_, hhidden⟩ | ⟨_, _, hl, hholder⟩
    · exact step_stay h h' rfl hhidden.symm (fun _ => Iff.rfl) (fun _ _ => rfl) rfl
    · -- The holder of the lock finds `holdingThread` set.
      obtain ⟨hv, hacquired, _⟩ := ne_of_wakes hi
      rw [hl] at hh
      exact absurd (h.holder t (holds_of_holder h hacq htodo hv (hacquired _) hholder)) hh
  | acquired htodo => exact step_acquired h h' htodo
  | @waitAppend _ c rest htodo =>
    refine step_stay h h' rfl ?_ (fun u => ?_) (fun c _ => waiting_append _ _ _) rfl
    · rw [htodo]
      exact (G.code_hidden rfl rest).symm
    · exact iff_of_eq (congrArg (· ≠ LockPhase.out) (lockPhase_append _ _ _ _))
  | @waitReturn _ c l' rest htodo =>
    refine step_stay h h' rfl ?_ (fun _ => Iff.rfl) (fun _ _ => rfl) rfl
    rw [htodo]
    exact (G.code_hidden rfl rest).symm
  | start cs htodo =>
    refine step_stay h h' rfl ?_ (fun _ => Iff.rfl) (fun _ _ => rfl) rfl
    rw [htodo, G.code_calls_outside (hstart cs rfl)]
    rfl
  | interrupt hhandler => exact step_interrupt hhandler

end Refine

end Synch

namespace Kernel

/-- The monitor in a state of the kernel. -/
def monitor (G : Guarded ι) (k : Kernel ι σ) : Monitor ι σ := k.synch.monitor G

/-- The invariant of a run with a monitor, where `I` is the invariant of the
monitor itself. -/
structure Monitored (G : Guarded ι) (I : Monitor ι σ → Prop) (k : Kernel ι σ) : Prop where
  mesa : k.Mesa
  lock : Synch.LockInv G.lock k.synch
  acquire : Synch.AcquireInv G.lock k.synch
  inv : I (k.monitor G)

section Monitored

variable {G : Guarded ι} {I : Monitor ι σ → Prop} {prog : Program ι σ η} {k k' : Kernel ι σ}
  {a : Action ι η}

theorem atomic_todo (h : k.Atomic) {u : ThreadPtr} {c : Nat}
    (hmem : .waitAppend c ∈ k.synch.todo u) :
    ∃ rest, k.synch.todo k.cur = .waitAppend c :: rest := by
  obtain ⟨_, rest, hcode | hcode, _⟩ := h u c (mem_todo_waitAppend.mp hmem)
  all_goals
    refine ⟨synchCode rest, ?_⟩
    show synchCode (k.code k.cur) = _
    rw [hcode]
    rfl

theorem monitored_step (hI : ∀ t m m', I m → Monitor.Step G prog t m m' → I m')
    (hdisc : ∀ m, I m → m.Disciplined G) (h : k.Monitored G I)
    (hok : k.ForkOnce a ∧ OutsideStart G.reserved a) (hstep : k.step prog a = some k') :
    k'.Monitored G I := by
  have hs := synch_step h.mesa.control hok.1 hstep
  have hd := dispatched_of_control h.mesa.control a
  have hlock := h.lock.step hd
    (Synch.disciplined_of_monitor h.lock h.acquire (hdisc _ h.inv) hs) hs
  refine ⟨mesa_step h.mesa hok.1 hstep, hlock, h.acquire.step hs, ?_⟩
  exact hI k.cur _ _ h.inv (Synch.step_monitor h.lock hlock h.acquire hd h.mesa.wait
    (fun u c => atomic_todo h.mesa.atomic) (hdisc _ h.inv) (outsideStart_label hok.2) hs)

/-- An invariant of the monitor that implies the discipline holds in every
state that a run reaches. -/
theorem monitor_invariant (hI : ∀ t m m', I m → Monitor.Step G prog t m m' → I m')
    (hdisc : ∀ m, I m → m.Disciplined G) {initialValue : Nat → Int}
    {holding : Nat → Option ThreadPtr} {shared : σ} {as : List (Action ι η)}
    (h0 : I ((init initialValue holding shared : Kernel ι σ).monitor G))
    (hok : Along (step prog) (fun k a => k.ForkOnce a ∧ OutsideStart G.reserved a)
      (init initialValue holding shared) as)
    (hrun : run (step prog) (init initialValue holding shared) as = some k) :
    k.Monitored G I := by
  refine run_invariant (I := fun k => k.Monitored G I)
    (fun k a k' h hoka hstep => monitored_step hI hdisc h hoka hstep) ?_ hok hrun
  refine ⟨mesa_init _ _ _, lockInv_init _ _ _ _, ⟨fun _ => trivial, fun t ht => ?_⟩, h0⟩
  cases ht

/-- While the lock has a unit nobody is inside. -/
theorem Monitored.holder_eq_none (h : k.Monitored G I) (hv : k.value (.lock G.lock) ≠ 0) :
    (k.monitor G).holder = none :=
  Synch.holder_eq_none h.lock (h.lock.out_of_value hv).2

/-- A thread on the queue of a condition waits on it. -/
theorem Monitored.mem_waiting (h : k.Monitored G I) {c : Nat} (hc : G.cond c = true)
    {t : ThreadPtr} (ht : t ∈ (k.sched.queue (.cond c)).items) :
    t ∈ (k.monitor G).waiting c := by
  have hwaiting : (k.monitor G).waiting c = waiting k.log c := if_pos hc
  rw [hwaiting]
  by_cases hnone : ∀ u, .waitAppend c ∉ k.synch.todo u
  · have hjoined : waiting k.log c = (k.sched.queue (.cond c)).items :=
      (h.mesa.wait c).joined hnone
    rw [hjoined]
    exact ht
  · simp only [not_forall, not_not] at hnone
    obtain ⟨u, hu⟩ := hnone
    have hjoining : waiting k.log c = (k.sched.queue (.cond c)).items ++ [u] :=
      (h.mesa.wait c).joining u hu
    rw [hjoining]
    exact List.mem_append_left [u] ht

end Monitored

end Kernel

end Nachos.Threads

import Nachos.Threads.Queues

/-!
# The synchronization layer

`Synch` is the state of `threads/synch.cc` without the dispatcher under it:
the semaphores, locks and conditions, and what each thread still has to do
with them.  The interrupt level, the ready list and the parts of a routine
that only handle them are gone, and any thread may act at any time.

`Synch.Step` is one step of this layer.  It is labelled with the instruction
that the acting thread executes.  `synch_step` proves that every step of the
kernel is a step of this layer by the current thread, so an invariant of the
layer is an invariant of the kernel.
-/

namespace Nachos.Threads

open Function Lib

variable {ι σ η : Type}

/-- The instructions that the layer sees: the calls of the synchronization
routines and of the program, and the places inside the routines. -/
def Instr.isSynch : Instr ι → Bool
  | .call (.newThread _) => false
  | .call (.setPriority _) => false
  | .call .yield => false
  | .call .oneTick => false
  | .call _ => true
  | .pLoop _ => true
  | .acquired _ => true
  | .waitAppend _ => true
  | .waitReturn _ _ => true
  | _ => false

/-- The part of a code that the layer sees. -/
def synchCode (is : List (Instr ι)) : List (Instr ι) := is.filter Instr.isSynch

/-- The instructions that test the value of a semaphore, with the semaphore
and the code that follows the loop of `P`. -/
def Instr.tests : Instr ι → Option (SemId × List (Instr ι))
  | .call (.p n) => some (.sem n, [])
  | .call (.acquire l) => some (.lock l, [.acquired l])
  | .pLoop s => some (s, [])
  | _ => none

theorem Instr.tests_cases {i : Instr ι} {s : SemId} {cont : List (Instr ι)}
    (hi : i.tests = some (s, cont)) :
    (∃ n, i = .call (.p n) ∧ s = .sem n ∧ cont = []) ∨
      (∃ l, i = .call (.acquire l) ∧ s = .lock l ∧ cont = [.acquired l]) ∨
      i = .pLoop s ∧ cont = [] := by
  cases i with
  | call c =>
    cases c with
    | p n =>
      cases hi
      exact Or.inl ⟨n, rfl, rfl, rfl⟩
    | acquire l =>
      cases hi
      exact Or.inr (Or.inl ⟨l, rfl, rfl, rfl⟩)
    | _ => cases hi
  | pLoop s' =>
    cases hi
    exact Or.inr (Or.inr ⟨rfl, rfl⟩)
  | _ => cases hi

/-- The instructions that only a running thread executes.  The others also
occur inside `Sleep`. -/
def Instr.isAwake : Instr ι → Bool
  | .call (.v _) => false
  | .setLevel _ => false
  | .sleep => false
  | .idle => false
  | _ => true

/-- What happens in a step: an instruction is executed, the main thread goes on
with new calls, or a device acts. -/
inductive Label (ι : Type) where
  | exec (i : Instr ι)
  | start (cs : List (Call ι))
  | device

/-- The state of the synchronization layer. -/
@[ext] structure Synch (ι σ : Type) where
  created : Nat
  todo : ThreadPtr → List (Instr ι)
  value : SemId → Int
  address : ThreadPtr → Nat
  holdingThread : Nat → Option Nat
  queue : QueueId → List ThreadPtr
  shared : σ
  log : List Event

namespace Synch

/-- Replace what a thread still has to do. -/
def setTodo (m : Synch ι σ) (t : ThreadPtr) (is : List (Instr ι)) : Synch ι σ :=
  { m with todo := update m.todo t is }

/-- Add events to the history. -/
def record (m : Synch ι σ) (es : List Event) : Synch ι σ :=
  { m with log := m.log ++ es }

/-- The thread joins a queue. -/
def block (m : Synch ι σ) (t : ThreadPtr) (q : QueueId) : Synch ι σ :=
  { m with queue := update m.queue q (m.queue q ++ [t]) }

/-- A `P` that takes a unit. -/
def pass (m : Synch ι σ) (t : ThreadPtr) (s : SemId) : Synch ι σ :=
  { m with value := update m.value s (i32 (m.value s - 1)) }.record [.pDone t s]

/-- `V`: the head of the queue, if there is one, leaves it. -/
def v (m : Synch ι σ) (s : SemId) : Synch ι σ :=
  { m with
    value := update m.value s (i32 (m.value s + 1))
    queue := update m.queue (.sem s) (m.queue (.sem s)).tail }.record [.v s]

/-- `Release`. -/
def release (m : Synch ι σ) (t : ThreadPtr) (l : Nat) : Synch ι σ :=
  ({ m with holdingThread := update m.holdingThread l none
   }.record [.release t l]).v (.lock l)

/-- The first `n` threads in the queue of a condition are made ready. -/
def wake (m : Synch ι σ) (c n : Nat) : Synch ι σ :=
  { m with queue := update m.queue (.cond c) ((m.queue (.cond c)).drop n)
  }.record (((m.queue (.cond c)).take n).map (.wake · c))

/-- `Signal` and `Broadcast`: the condition, its lock, and the number of
threads that are made ready when the caller holds the lock. -/
def wakes (m : Synch ι σ) : Instr ι → Option (Nat × Nat × Nat)
  | .call (.signal c l) => some (c, l, 1)
  | .call (.broadcast c l) => some (c, l, (m.queue (.cond c)).length)
  | _ => none

/-- One step of the layer by thread `t`. -/
inductive Step (prog : Program ι σ η) (t : ThreadPtr) :
    Label ι → Synch ι σ → Synch ι σ → Prop where
  | quiet {o} (m) (ho : ∀ i, o = .exec i → i.isSynch = false) : Step prog t o m m
  | newThread {o} (m) (ho : ∀ i, o = .exec i → i.isSynch = false) :
      Step prog t o m { m with created := m.created + 1 }
  | fork {m u func rest} (h : m.todo t = .call (.fork u func) :: rest) (hut : u ≠ t)
      (hfresh : m.todo u = []) :
      Step prog t (.exec (.call (.fork u func))) m
        ((m.setTodo t rest).setTodo u [.call (.client func), .call .finish])
  | finish {m rest} (h : m.todo t = .call .finish :: rest)
      (hrest : ∀ s, .pLoop s ∉ rest) :
      Step prog t (.exec (.call .finish)) m (m.setTodo t [])
  | client {m i rest r} (s : Sched) (h : m.todo t = .call (.client i) :: rest)
      (hs : s.currentThread = t) (hexec : prog.exec s i m.shared = some r) :
      Step prog t (.exec (.call (.client i))) m
        ({ m with shared := r.1 }.setTodo t (synchCode (r.2.map Instr.call) ++ rest))
  | block {m i rest s cont} (h : m.todo t = i :: rest) (hi : i.tests = some (s, cont))
      (hv : m.value s = 0) :
      Step prog t (.exec i) m ((m.block t (.sem s)).setTodo t (.pLoop s :: cont ++ rest))
  | pass {m i rest s cont} (h : m.todo t = i :: rest) (hi : i.tests = some (s, cont))
      (hv : m.value s ≠ 0) :
      Step prog t (.exec i) m ((m.pass t s).setTodo t (cont ++ rest))
  | v {m n rest} (h : m.todo t = .call (.v n) :: rest) :
      Step prog t (.exec (.call (.v n))) m ((m.v (.sem n)).setTodo t rest)
  | release {m l rest} (h : m.todo t = .call (.release l) :: rest) :
      Step prog t (.exec (.call (.release l))) m ((m.release t l).setTodo t rest)
  | wait {m c l rest} (h : m.todo t = .call (.wait c l) :: rest) :
      Step prog t (.exec (.call (.wait c l))) m
        (((m.record [.waitRelease t c]).release t l).setTodo t
          (.waitAppend c :: .call (.acquire l) :: .waitReturn c l :: rest))
  | wake {m i rest c l n} (h : m.todo t = i :: rest) (hi : m.wakes i = some (c, l, n))
      (hh : m.holdingThread l = some (m.address t)) :
      Step prog t (.exec i) m ((m.wake c n).setTodo t rest)
  | noWake {m i rest c l n} (h : m.todo t = i :: rest) (hi : m.wakes i = some (c, l, n))
      (hh : m.holdingThread l ≠ some (m.address t)) :
      Step prog t (.exec i) m (m.setTodo t rest)
  | acquired {m l rest} (h : m.todo t = .acquired l :: rest) :
      Step prog t (.exec (.acquired l)) m
        (({ m with holdingThread := update m.holdingThread l (some (m.address t))
          }.record [.acquired t l]).setTodo t rest)
  | waitAppend {m c rest} (h : m.todo t = .waitAppend c :: rest) :
      Step prog t (.exec (.waitAppend c)) m
        (((m.block t (.cond c)).record [.join t c]).setTodo t rest)
  | waitReturn {m c l rest} (h : m.todo t = .waitReturn c l :: rest) :
      Step prog t (.exec (.waitReturn c l)) m (m.setTodo t rest)
  | start {m} (cs : List (Call ι)) (h : m.todo t = []) :
      Step prog t (.start cs) m (m.setTodo t (synchCode (cs.map Instr.call)))
  | interrupt {m d r} (h : prog.handler d m.shared = some r) :
      Step prog t .device m
        ({ m with shared := r.1 }.setTodo t
          (r.2.map (fun n => Instr.call (.v n)) ++ m.todo t))

/-- The calls that wake. -/
theorem wakes_cases {m : Synch ι σ} {i : Instr ι} {c l n : Nat}
    (hi : m.wakes i = some (c, l, n)) :
    i = .call (.signal c l) ∨ i = .call (.broadcast c l) := by
  cases i with
  | call k =>
    cases k with
    | signal c' l' =>
      cases hi
      exact Or.inl rfl
    | broadcast c' l' =>
      cases hi
      exact Or.inr rfl
    | _ => cases hi
  | _ => cases hi

/-- A visible instruction is the first that the thread has to do. -/
theorem todo_of_exec {prog : Program ι σ η} {t : ThreadPtr} {i : Instr ι}
    {m m' : Synch ι σ} (hstep : Step prog t (.exec i) m m') (hi : i.isSynch = true) :
    ∃ rest, m.todo t = i :: rest := by
  cases hstep with
  | quiet m ho | newThread m ho =>
    rw [ho i rfl] at hi
    cases hi
  | client s h => exact ⟨_, h⟩
  | _ h => exact ⟨_, h⟩

/-- The instructions that a step of thread `t` adds to what a thread has to
do. -/
inductive Added (prog : Program ι σ η) (m : Synch ι σ) (t : ThreadPtr) :
    Label ι → ThreadPtr → Instr ι → Prop where
  | fork {u func j} (h : j ∈ [.call (.client func), .call .finish]) :
      Added prog m t (.exec (.call (.fork u func))) u j
  | client {i r c} (s : Sched) (hexec : prog.exec s i m.shared = some r) (hc : c ∈ r.2) :
      Added prog m t (.exec (.call (.client i))) t (.call c)
  | test {i s cont j} (hi : i.tests = some (s, cont)) (h : j ∈ .pLoop s :: cont) :
      Added prog m t (.exec i) t j
  | wait {c l j} (h : j ∈ [.waitAppend c, .call (.acquire l), .waitReturn c l]) :
      Added prog m t (.exec (.call (.wait c l))) t j
  | start {cs c} (h : c ∈ cs) : Added prog m t (.start cs) t (.call c)
  | handler (n : Nat) : Added prog m t .device t (.call (.v n))

theorem tests_cont {i j : Instr ι} {s : SemId} {cont : List (Instr ι)}
    (hi : i.tests = some (s, cont)) (hj : j ∈ .pLoop s :: cont) :
    j = .pLoop s ∨ ∃ l, j = .acquired l := by
  rcases Instr.tests_cases hi with ⟨n, _, _, rfl⟩ | ⟨l, _, _, rfl⟩ | ⟨_, rfl⟩
  · exact Or.inl (List.mem_singleton.mp hj)
  · simp only [List.mem_cons, List.not_mem_nil, or_false] at hj
    exact hj.imp_right fun h => ⟨l, h⟩
  · exact Or.inl (List.mem_singleton.mp hj)

section Added

variable {prog : Program ι σ η} {m m' : Synch ι σ} {t u : ThreadPtr} {o : Label ι}
  {j : Instr ι}

theorem mem_setTodo {is : List (Instr ι)} (hj : j ∈ (m.setTodo t is).todo u) :
    j ∈ m.todo u ∨ u = t ∧ j ∈ is := by
  by_cases hut : u = t
  · subst hut
    exact Or.inr ⟨rfl, by simpa [setTodo] using hj⟩
  · exact Or.inl (by simpa [setTodo, update_of_ne hut] using hj)

/-- A step after which the thread goes on with `is`, whose instructions are
old or added. -/
theorem mem_setTodo_of {is : List (Instr ι)}
    (his : ∀ j ∈ is, j ∈ m.todo t ∨ Added prog m t o t j) (htodo : m'.todo = m.todo)
    (hj : j ∈ (m'.setTodo t is).todo u) : j ∈ m.todo u ∨ Added prog m t o u j := by
  rcases mem_setTodo hj with hj' | ⟨rfl, hj'⟩
  · exact Or.inl (htodo ▸ hj')
  · exact his j hj'

/-- What a thread has to do after a step, it had to do before, or the step has
added it. -/
theorem mem_todo_step (hstep : Step prog t o m m') (hj : j ∈ m'.todo u) :
    j ∈ m.todo u ∨ Added prog m t o u j := by
  have htail {i j : Instr ι} {l rest : List (Instr ι)} (h : m.todo t = i :: rest)
      (hadd : ∀ j ∈ l, Added prog m t o t j) (hj : j ∈ l ++ rest) :
      j ∈ m.todo t ∨ Added prog m t o t j := by
    rcases List.mem_append.mp hj with hj | hj
    · exact Or.inr (hadd j hj)
    · exact Or.inl (h ▸ List.mem_cons_of_mem i hj)
  have hnone : ∀ j ∈ ([] : List (Instr ι)), Added prog m t o t j := by simp
  cases hstep with
  | quiet m ho => exact Or.inl hj
  | newThread m ho => exact Or.inl hj
  | fork h hut hfresh =>
    rcases mem_setTodo hj with hj' | ⟨rfl, hj'⟩
    · exact mem_setTodo_of (fun j => htail h hnone) rfl hj'
    · exact Or.inr (.fork hj')
  | finish h hrest => exact mem_setTodo_of (by simp) rfl hj
  | @client _ i rest r s h hs hexec =>
    refine mem_setTodo_of (fun j => htail h fun j hj => ?_) rfl hj
    obtain ⟨c, hc, rfl⟩ := List.mem_map.mp (List.mem_of_mem_filter hj)
    exact .client s hexec hc
  | block h hi hv =>
    exact mem_setTodo_of (fun j => htail h fun j hj => .test hi hj) rfl hj
  | pass h hi hv =>
    exact mem_setTodo_of (fun j => htail h fun j hj => .test hi (List.mem_cons_of_mem _ hj))
      rfl hj
  | wait h =>
    exact mem_setTodo_of (fun j => htail (l := [_, _, _]) h fun j hj => .wait hj) rfl hj
  | start cs h =>
    refine mem_setTodo_of (fun j hj => Or.inr ?_) rfl hj
    obtain ⟨c, hc, rfl⟩ := List.mem_map.mp (List.mem_of_mem_filter hj)
    exact .start hc
  | interrupt h =>
    refine mem_setTodo_of (fun j hj => ?_) rfl hj
    rcases List.mem_append.mp hj with hj | hj
    · obtain ⟨n, _, rfl⟩ := List.mem_map.mp hj
      exact Or.inr (.handler n)
    · exact Or.inl hj
  | v h | release h | wake h hi hh | noWake h hi hh | acquired h | waitAppend h | waitReturn h =>
    exact mem_setTodo_of (fun j => htail h hnone) rfl hj

end Added

/-- What the dispatcher guarantees when thread `t` executes the instruction
`o`. -/
structure Dispatched (m : Synch ι σ) (t : ThreadPtr) (o : Label ι) : Prop where
  lt_created : t < m.created
  nodup : ∀ q, (m.queue q).Nodup
  queued_lt : ∀ q, ∀ u ∈ m.queue q, u < m.created
  free : ∀ i, o = .exec i → i.isAwake = true → ∀ q, t ∉ m.queue q

end Synch

namespace Kernel

/-- The synchronization layer of a kernel state. -/
def synch (k : Kernel ι σ) : Synch ι σ where
  created := k.sched.created
  todo t := synchCode (k.code t)
  value := k.value
  address := k.sched.address
  holdingThread := k.holdingThread
  queue q := (k.sched.queue q).items
  shared := k.shared
  log := k.log

/-- What the layer sees of an action. -/
def label (k : Kernel ι σ) : Action ι η → Label ι
  | .start cs => .start cs
  | .exec =>
      match k.code k.cur with
      | i :: _ => .exec i
      | [] => .device
  | .interrupt _ => .device
  | .timer => .device

/-- A step that executes an instruction. -/
theorem label_eq_exec {k : Kernel ι σ} {a : Action ι η} {i : Instr ι}
    (h : k.label a = .exec i) : a = .exec ∧ ∃ rest, k.code k.cur = i :: rest := by
  cases a with
  | exec =>
    simp only [label] at h
    split at h
    · rename_i j rest hcode
      cases h
      exact ⟨rfl, rest, hcode⟩
    · cases h
  | _ => cases h

/-! ## The layer of a changed kernel -/

section Frame

variable {k k' : Kernel ι σ} {rest is : List (Instr ι)}

theorem synch_setCode (k : Kernel ι σ) (is : List (Instr ι)) :
    (k.setCode is).synch = k.synch.setTodo k.cur (synchCode is) := by
  ext1
  case todo =>
    funext t
    by_cases ht : t = k.cur
    · subst ht
      simp [synch, setCode, Synch.setTodo]
    · simp [synch, setCode, Synch.setTodo, update_of_ne ht]
  all_goals rfl

/-- Code that looks the same to the layer. -/
theorem setTodo_synchCode (his : synchCode is = synchCode (k.code k.cur)) :
    k.synch.setTodo k.cur (synchCode is) = k.synch := by
  have hself : k.synch.todo k.cur = synchCode (k.code k.cur) := rfl
  rw [his, ← hself, Synch.setTodo, update_eq_self]

/-- A switch of the current thread is not visible. -/
theorem synch_switchTo {s : Sched} {next : ThreadPtr}
    (hc : s.created = k.sched.created) (hq : s.queue = k.sched.queue)
    (ha : s.address = k.sched.address) (his : synchCode rest = synchCode (k.code k.cur)) :
    (k.switchTo s next rest).synch = k.synch := by
  have hsw : (k.switchTo s next rest).synch = (k.setCode (.afterSwitch :: rest)).synch := by
    ext1
    case created => exact hc
    case address => exact ha
    case queue =>
      funext q
      simp [synch, switchTo, setCode, hq]
    all_goals rfl
  rw [hsw, synch_setCode]
  exact setTodo_synchCode his

theorem synch_yield (his : synchCode rest = synchCode (k.code k.cur)) :
    (k.yield rest).synch = k.synch := by
  unfold yield
  cases hl : k.sched.readyList with
  | nil =>
    simp only [Sched.findNextToRun, hl, NachosList.remove_nil]
    rw [synch_setCode]
    exact setTodo_synchCode his
  | cons e es =>
    simp only [Sched.findNextToRun, hl, NachosList.remove_cons]
    exact synch_switchTo (k := k.disable) rfl rfl rfl his

theorem synch_sleep (his : synchCode rest = synchCode (k.code k.cur)) :
    (k.sleep rest).synch = k.synch := by
  unfold sleep
  cases hl : k.sched.readyList with
  | nil =>
    simp only [Sched.findNextToRun, hl, NachosList.remove_nil]
    rw [synch_setCode]
    exact setTodo_synchCode his
  | cons e es =>
    simp only [Sched.findNextToRun, hl, NachosList.remove_cons]
    exact synch_switchTo rfl rfl rfl his

theorem synch_setLevel {l : IntStatus} (his : synchCode rest = synchCode (k.code k.cur)) :
    (k.setLevel l rest).synch = k.synch := by
  unfold setLevel
  split
  · rw [oneTick, synch_setCode]
    exact setTodo_synchCode his
  · rw [synch_setCode]
    exact setTodo_synchCode his

theorem synch_dueDone (his : synchCode rest = synchCode (k.code k.cur)) :
    (k.dueDone rest).synch = k.synch := by
  unfold dueDone
  split
  all_goals
    rw [synch_setCode]
    exact setTodo_synchCode his

/-- A wake takes the head off the queue. -/
theorem items_wake_queue (s : Sched) (q : QueueId) :
    (fun q' => ((s.wake q).queue q').items) =
      update (fun q' => (s.queue q').items) q (s.queue q).items.tail := by
  funext q'
  by_cases hq : q' = q
  · subst hq
    simp [NachosList.items, List.map_tail]
  · simp [update_of_ne hq]

theorem items_wakeAll_queue (s : Sched) (q : QueueId) :
    (fun q' => ((s.wakeAll q).queue q').items) =
      update (fun q' => (s.queue q').items) q [] := by
  funext q'
  by_cases hq : q' = q
  · subst hq
    simp
  · simp [update_of_ne hq]

theorem items_block_queue (s : Sched) (q : QueueId) :
    (fun q' => ((s.block q).queue q').items) =
      update (fun q' => (s.queue q').items) q ((s.queue q).items ++ [s.currentThread]) := by
  funext q'
  by_cases hq : q' = q
  · subst hq
    simp
  · simp [update_of_ne hq]

theorem synch_v (s : SemId) :
    (k.v s rest).synch = (k.synch.v s).setTodo k.cur (synchCode rest) := by
  rw [v, synch_setCode]
  congr 1
  · ext1
    case created => exact Sched.wake_created _ _
    case address => exact Sched.wake_address _ _
    case queue => exact items_wake_queue _ _
    all_goals rfl
  · exact Sched.wake_currentThread _ _

theorem synch_release (l : Nat) :
    (k.release l rest).synch = (k.synch.release k.cur l).setTodo k.cur (synchCode rest) := by
  rw [release, synch_v]
  rfl

theorem synch_wait (c l : Nat) :
    (k.wait c l rest).synch =
      ((k.synch.record [.waitRelease k.cur c]).release k.cur l).setTodo k.cur
        (.waitAppend c :: .call (.acquire l) :: .waitReturn c l :: synchCode rest) := by
  rw [wait, synch_release]
  rfl

theorem synch_waitAppend (c : Nat) :
    (({ k with sched := k.sched.block (.cond c) }.record [.join k.cur c]).setCode
      (.sleep :: rest)).synch =
      ((k.synch.block k.cur (.cond c)).record [.join k.cur c]).setTodo k.cur
        (synchCode rest) := by
  have hblock : ({ k with sched := k.sched.block (.cond c) }.record
      [.join k.cur c] : Kernel ι σ).synch =
        (k.synch.block k.cur (.cond c)).record [.join k.cur c] := by
    ext1
    case queue => exact items_block_queue _ _
    all_goals rfl
  rw [synch_setCode, hblock]
  rfl

end Frame

/-! ## Every step of the kernel is a step of the layer -/

section Step

variable {prog : Program ι σ η} {k k' : Kernel ι σ} {rest : List (Instr ι)} {i : Instr ι}

/-- A change of code that the layer does not see. -/
theorem step_quiet {is : List (Instr ι)} (hi : i.isSynch = false)
    (his : synchCode is = synchCode (k.code k.cur)) :
    Synch.Step prog k.cur (.exec i) k.synch (k.synch.setTodo k.cur (synchCode is)) := by
  rw [setTodo_synchCode his]
  exact .quiet _ (by rintro j ⟨⟩; exact hi)

/-- A test of a semaphore value.  `cont` is what follows the loop. -/
theorem synch_pTest {s : SemId} {cont tail : List (Instr ι)}
    (htodo : k.synch.todo k.cur = i :: tail) (hi : i.tests = some (s, cont))
    (hrest : synchCode rest = cont ++ tail) :
    Synch.Step prog k.cur (.exec i) k.synch (k.pTest s rest).synch := by
  unfold pTest
  split
  · rename_i hv
    have hblock : ({ k with sched := k.sched.block (.sem s) } : Kernel ι σ).synch =
        k.synch.block k.cur (.sem s) := by
      ext1
      case queue => exact items_block_queue _ _
      all_goals rfl
    have hcode : synchCode (.sleep :: .pLoop s :: rest) = .pLoop s :: (cont ++ tail) := by
      rw [← hrest]
      rfl
    rw [synch_setCode, hblock, hcode]
    exact .block htodo hi hv
  · rename_i hv
    rw [synch_setCode, hrest]
    exact .pass htodo hi hv

theorem synch_signal {c l : Nat}
    (htodo : k.synch.todo k.cur = .call (.signal c l) :: synchCode rest) :
    Synch.Step prog k.cur (.exec (.call (.signal c l))) k.synch (k.signal c l rest).synch := by
  unfold signal
  split
  · rename_i hh
    have hwake : ({ k.disable with sched := k.sched.wake (.cond c) }.record
        (k.wakeEvents c 1)).synch = k.synch.wake c 1 := by
      ext1
      case created => exact Sched.wake_created _ _
      case address => exact Sched.wake_address _ _
      case queue =>
        refine (items_wake_queue _ _).trans ?_
        rw [← List.drop_one]
        rfl
      all_goals rfl
    have hcur : ({ k.disable with sched := k.sched.wake (.cond c) }.record
        (k.wakeEvents c 1)).cur = k.cur := Sched.wake_currentThread _ _
    rw [synch_setCode, hwake, hcur]
    exact .wake htodo rfl hh
  · rename_i hh
    rw [synch_setCode]
    exact .noWake htodo rfl hh

theorem synch_broadcast {c l : Nat}
    (htodo : k.synch.todo k.cur = .call (.broadcast c l) :: synchCode rest) :
    Synch.Step prog k.cur (.exec (.call (.broadcast c l))) k.synch
      (k.broadcast c l rest).synch := by
  have hlen : (k.synch.queue (.cond c)).length = (k.sched.queue (.cond c)).length :=
    List.length_map _
  unfold broadcast
  split
  · rename_i hh
    have hwake : ({ k.disable with sched := k.sched.wakeAll (.cond c) }.record
        (k.wakeEvents c (k.sched.queue (.cond c)).length)).synch =
          k.synch.wake c (k.synch.queue (.cond c)).length := by
      ext1
      case created => exact Sched.wakeAll_created _ _
      case address => exact Sched.wakeAll_address _ _
      case queue =>
        refine (items_wakeAll_queue _ _).trans ?_
        simp [Synch.wake, Synch.record, synch]
      case log =>
        rw [hlen]
        rfl
      all_goals rfl
    have hcur : ({ k.disable with sched := k.sched.wakeAll (.cond c) }.record
        (k.wakeEvents c (k.sched.queue (.cond c)).length)).cur = k.cur :=
      Sched.wakeAll_currentThread _ _
    rw [synch_setCode, hwake, hcur]
    exact .wake htodo rfl hh
  · rename_i hh
    rw [synch_setCode]
    exact .noWake htodo rfl hh

/-- Code that runs with interrupts on is not inside the loop of `P`. -/
theorem pLoop_not_mem_of_wf {is : List (Instr ι)} (hwf : Wf .enabled is) (s : SemId) :
    .pLoop s ∉ is := by
  induction is with
  | nil => simp
  | cons i is ih =>
    cases i <;> simp_all [Wf]

/-- The new thread starts with its function. -/
theorem synch_fork {t : ThreadPtr} {func : ι} (hne : k.cur ≠ t) :
    (k.fork t func rest).synch =
      (k.synch.setTodo k.cur (synchCode rest)).setTodo t
        [.call (.client func), .call .finish] := by
  ext1
  case todo =>
    funext u
    show synchCode (update (update k.code t [.threadRoot, .call (.client func), .call .finish])
        k.cur (.setLevel k.level :: rest) u) =
      update (update (fun u => synchCode (k.code u)) k.cur (synchCode rest)) t
        [.call (.client func), .call .finish] u
    by_cases hut : u = t
    · rw [hut, update_of_ne hne.symm, update_self, update_self]
      rfl
    · rw [update_of_ne hut]
      by_cases hu : u = k.cur
      · rw [hu, update_self, update_self]
        rfl
      · rw [update_of_ne hu, update_of_ne hut, update_of_ne hu]
  all_goals rfl

theorem synch_execCall {c : Call ι} (h : k.Base) (hcode : k.code k.cur = .call c :: rest)
    (hwf : Wf k.mode (.call c :: rest))
    (hfork : ∀ t func, c = .fork t func →
      t < k.sched.created ∧ k.sched.status t = .justCreated)
    (hstep : k.execCall prog rest c = some k') :
    Synch.Step prog k.cur (.exec (.call c)) k.synch k'.synch := by
  have htodo : k.synch.todo k.cur = synchCode (.call c :: rest) := by
    rw [← hcode]
    rfl
  cases c with
  | newThread pr =>
    obtain ⟨s, hs, rfl⟩ := Option.map_eq_some_iff.mp hstep
    obtain ⟨ids, _, rfl⟩ := Sched.newThread_spec hs
    rw [synch_setCode]
    have hsame : k.synch.setTodo k.cur (synchCode rest) = k.synch :=
      setTodo_synchCode (by rw [hcode]; rfl)
    have hnew : Synch.Step prog k.cur (.exec (.call (.newThread pr)))
        k.synch { k.synch.setTodo k.cur (synchCode rest) with
          created := k.sched.created + 1 } := by
      rw [hsame]
      exact .newThread _ (by rintro j ⟨⟩; rfl)
    exact hnew
  | fork t func =>
    obtain ⟨_, hst⟩ := hfork t func rfl
    have hne : k.cur ≠ t := by
      intro he
      rw [← he] at hst
      exact h.sched.current_started hst
    rw [← Option.some.inj hstep, synch_fork hne]
    refine .fork htodo hne.symm ?_
    have hnil := h.suspended.fresh t (Or.inr hst)
    simp [synch, hnil, synchCode]
  | setPriority pr =>
    rw [← Option.some.inj hstep, synch_setCode]
    exact step_quiet rfl (by rw [hcode]; rfl)
  | yield =>
    rw [← Option.some.inj hstep, synch_yield (by rw [hcode]; rfl)]
    exact .quiet _ (by rintro j ⟨⟩; rfl)
  | finish =>
    rw [← Option.some.inj hstep, finish, synch_setCode]
    refine .finish htodo ?_
    intro s hmem
    have hm : k.mode = .enabled := by
      have hall := hwf.1
      cases hm : k.mode <;> rw [hm] at hall <;> simp_all [Call.Allowed]
    have hwf' := hwf.2
    rw [hm] at hwf'
    exact pLoop_not_mem_of_wf hwf' s (List.mem_of_mem_filter hmem)
  | p n | acquire l =>
    cases hstep
    exact synch_pTest (k := k.disable) htodo rfl rfl
  | v n =>
    rw [← Option.some.inj hstep, synch_v]
    exact .v htodo
  | release l =>
    rw [← Option.some.inj hstep, synch_release]
    exact .release htodo
  | wait c l =>
    rw [← Option.some.inj hstep, synch_wait]
    exact .wait htodo
  | signal c l =>
    cases hstep
    exact synch_signal htodo
  | broadcast c l =>
    cases hstep
    exact synch_broadcast htodo
  | oneTick =>
    rw [← Option.some.inj hstep, oneTick, synch_setCode]
    exact step_quiet rfl (by rw [hcode]; rfl)
  | client i =>
    obtain ⟨r, hr, rfl⟩ := Option.map_eq_some_iff.mp hstep
    rw [synch_setCode, synchCode, List.filter_append]
    exact .client k.sched htodo rfl hr

theorem synch_execInstr (h : k.Base) (hcode : k.code k.cur = i :: rest)
    (hwf : Wf k.mode (i :: rest))
    (hfork : ∀ t func, i = .call (.fork t func) →
      t < k.sched.created ∧ k.sched.status t = .justCreated)
    (hstep : k.execInstr prog rest i = some k') :
    Synch.Step prog k.cur (.exec i) k.synch k'.synch := by
  have htodo : k.synch.todo k.cur = synchCode (i :: rest) := by
    rw [← hcode]
    rfl
  cases i with
  | call c =>
    exact synch_execCall h hcode hwf (fun t func hc => hfork t func (by rw [hc])) hstep
  | setLevel l | threadRoot =>
    rw [← Option.some.inj hstep, synch_setLevel (by rw [hcode]; rfl)]
    exact .quiet _ (by rintro j ⟨⟩; rfl)
  | dueLoop =>
    rw [← Option.some.inj hstep, synch_dueDone (by rw [hcode]; rfl)]
    exact .quiet _ (by rintro j ⟨⟩; rfl)
  | sleep =>
    rw [← Option.some.inj hstep, synch_sleep (by rw [hcode]; rfl)]
    exact .quiet _ (by rintro j ⟨⟩; rfl)
  | idle =>
    rw [← Option.some.inj hstep, synch_setCode]
    exact step_quiet rfl (by rw [hcode]; rfl)
  | pLoop s =>
    cases hstep
    exact synch_pTest htodo rfl rfl
  | acquired l =>
    rw [← Option.some.inj hstep, synch_setCode]
    exact .acquired htodo
  | waitAppend c =>
    rw [← Option.some.inj hstep, synch_waitAppend]
    exact .waitAppend htodo
  | waitReturn c l =>
    rw [← Option.some.inj hstep, synch_setCode]
    exact .waitReturn htodo
  | afterSwitch =>
    obtain ⟨s, hs, rfl⟩ := Option.map_eq_some_iff.mp hstep
    have hrest : synchCode rest = synchCode (k.code k.cur) := by
      rw [hcode]
      rfl
    rw [synch_setCode]
    rcases Sched.reap_spec hs with ⟨rfl, _⟩ | ⟨_, _, _, rfl⟩ <;> exact step_quiet rfl hrest
  | notReached => cases hstep

/-- A running thread is on no queue when it executes. -/
theorem dispatched_of_control (h : k.Control) (a : Action ι η) :
    k.synch.Dispatched k.cur (k.label a) where
  lt_created := h.sched.current_lt
  nodup := h.sched.queue_nodup
  queued_lt q u hu := (h.sched.queue_blocked u q hu).1
  free i hi hawake := by
    obtain ⟨_, rest, hcode⟩ := label_eq_exec hi
    have hwf := h.current
    rw [hcode] at hwf
    have hm : k.mode ≠ .asleep := by
      intro hm
      rw [hm] at hwf
      cases i with
      | call c => cases c <;> simp_all [Wf, Call.Allowed, Instr.isAwake]
      | _ => simp_all [Wf, Instr.isAwake]
    exact (h.sched.current_free (running_of_mode hm).1).2.1

/-- The current thread takes a step of the layer. -/
theorem synch_step {a : Action ι η} (h : k.Control) (hfork : k.ForkOnce a)
    (hstep : k.step prog a = some k') :
    Synch.Step prog k.cur (k.label a) k.synch k'.synch := by
  cases a with
  | start cs =>
    simp only [step] at hstep
    split at hstep
    · rename_i hcode
      rw [← Option.some.inj hstep, synch_setCode]
      refine .start cs ?_
      simp [synch, hcode, synchCode]
    · cases hstep
  | exec =>
    simp only [step] at hstep
    split at hstep
    · cases hstep
    · rename_i i rest hcode
      have hlabel : k.label (.exec : Action ι η) = .exec i := by
        simp only [label, hcode]
      rw [hlabel]
      refine synch_execInstr h.toBase hcode (hcode ▸ h.current) ?_ hstep
      intro t func hi
      subst hi
      simpa [ForkOnce, hcode] using hfork
  | interrupt d =>
    simp only [step] at hstep
    split at hstep
    · obtain ⟨r, hr, rfl⟩ := Option.map_eq_some_iff.mp hstep
      have hv : synchCode (r.2.map (fun n => (.call (.v n) : Instr ι))) =
          r.2.map (fun n => .call (.v n)) := by
        apply List.filter_eq_self.mpr
        intro i hi
        obtain ⟨n, _, rfl⟩ := List.mem_map.mp hi
        rfl
      rw [synch_setCode, synchCode, List.filter_append, ← synchCode, hv]
      exact .interrupt hr
    · cases hstep
  | timer =>
    simp only [step] at hstep
    split at hstep
    · cases hstep
      exact .quiet _ (by simp [label])
    · cases hstep

theorem shared_pTest (k : Kernel ι σ) (s : SemId) (rest : List (Instr ι)) :
    (k.pTest s rest).shared = k.shared := by
  unfold pTest
  split <;> rfl

theorem shared_setLevel (k : Kernel ι σ) (now : IntStatus) (rest : List (Instr ι)) :
    (k.setLevel now rest).shared = k.shared := by
  unfold setLevel
  split <;> rfl

/-- Only the code of the program changes its data. -/
theorem shared_execCall {c : Call ι} {rest : List (Instr ι)}
    (h : k.execCall prog rest c = some k') :
    k'.shared = k.shared ∨ k'.sched = k.sched ∧ ∃ i r, c = .client i ∧
      prog.exec k.sched i k.shared = some r ∧ k'.shared = r.1 := by
  cases c with
  | client i =>
      obtain ⟨r, hr, rfl⟩ := Option.map_eq_some_iff.mp h
      exact Or.inr ⟨rfl, i, r, rfl, hr, rfl⟩
  | newThread pr =>
      obtain ⟨s, _, rfl⟩ := Option.map_eq_some_iff.mp h
      exact Or.inl rfl
  | yield =>
      cases h
      refine Or.inl ?_
      unfold yield
      split <;> rfl
  | p n | acquire l =>
      cases h
      exact Or.inl (shared_pTest _ _ _)
  | signal c l | broadcast c l =>
      cases h
      refine Or.inl ?_
      show (ite _ _ _ : Kernel ι σ).shared = _
      split <;> rfl
  | _ =>
      cases h
      exact Or.inl rfl

theorem shared_execInstr {rest : List (Instr ι)} (h : k.execInstr prog rest i = some k') :
    k'.shared = k.shared ∨ k'.sched = k.sched ∧ ∃ j r, i = .call (.client j) ∧
      prog.exec k.sched j k.shared = some r ∧ k'.shared = r.1 := by
  cases i with
  | call c =>
      rcases shared_execCall h with heq | ⟨hsched, j, r, rfl, hr, heq⟩
      · exact Or.inl heq
      · exact Or.inr ⟨hsched, j, r, rfl, hr, heq⟩
  | setLevel l | threadRoot =>
      cases h
      exact Or.inl (shared_setLevel _ _ _)
  | dueLoop =>
      cases h
      refine Or.inl ?_
      unfold dueDone
      split <;> rfl
  | sleep =>
      cases h
      refine Or.inl ?_
      unfold sleep
      split <;> rfl
  | pLoop s =>
      cases h
      exact Or.inl (shared_pTest _ _ _)
  | afterSwitch =>
      obtain ⟨s, _, rfl⟩ := Option.map_eq_some_iff.mp h
      exact Or.inl rfl
  | notReached => cases h
  | _ =>
      cases h
      exact Or.inl rfl

/-- The steps that change the data of the program. -/
theorem step_shared {a : Action ι η} (hstep : k.step prog a = some k') :
    k'.shared = k.shared ∨
      (a = .exec ∧ k'.sched = k.sched ∧ ∃ i rest r, k.code k.cur = .call (.client i) :: rest ∧
        prog.exec k.sched i k.shared = some r ∧ k'.shared = r.1) ∨
      ∃ d r, a = .interrupt d ∧ prog.handler d k.shared = some r ∧ k'.shared = r.1 := by
  cases a with
  | start cs | timer =>
      simp only [step] at hstep
      split at hstep
      · cases hstep
        exact Or.inl rfl
      · cases hstep
  | exec =>
      simp only [step] at hstep
      split at hstep
      · cases hstep
      · rename_i i rest hcode
        rcases shared_execInstr hstep with heq | ⟨hsched, j, r, rfl, hr, heq⟩
        · exact Or.inl heq
        · exact Or.inr (Or.inl ⟨rfl, hsched, j, rest, r, hcode, hr, heq⟩)
  | interrupt d =>
      simp only [step] at hstep
      split at hstep
      · obtain ⟨r, hr, rfl⟩ := Option.map_eq_some_iff.mp hstep
        exact Or.inr (Or.inr ⟨d, r, rfl, hr, rfl⟩)
      · cases hstep

/-- An invariant of the layer holds in every state that a run reaches. -/
theorem synch_invariant {ok : Kernel ι σ → Action ι η → Prop} {I : Synch ι σ → Prop}
    (hfork : ∀ (k : Kernel ι σ) (a : Action ι η), ok k a → k.ForkOnce a)
    (hI : ∀ (k : Kernel ι σ) a m', k.Control → ok k a → I k.synch →
      Synch.Step prog k.cur (k.label a) k.synch m' → I m')
    {k0 : Kernel ι σ} {as : List (Action ι η)} (h0 : k0.Control) (hI0 : I k0.synch)
    (hok : Along (step prog) ok k0 as) (hrun : run (step prog) k0 as = some k) :
    k.Control ∧ I k.synch := by
  refine run_invariant (I := fun k => k.Control ∧ I k.synch) ?_ ⟨h0, hI0⟩ hok hrun
  intro k a k' ⟨hk, hIk⟩ hoka hstep
  have hf := hfork k a hoka
  exact ⟨control_step hk hf hstep, hI k a _ hk hoka hIk (synch_step hk hf hstep)⟩

end Step

end Kernel

end Nachos.Threads

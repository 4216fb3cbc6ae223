import Nachos.Threads.Synch

/-!
# Protocols over the synchronization routines

A protocol is code that keeps some semaphores, locks and conditions for itself:
`Reserved` says which, and which instructions of the program enter it.  All
other code leaves the reserved objects alone.  In such a program the code of a
thread is the code of the protocol that it is in, followed by code that has
nothing to do with the protocol.

`Config` is what the protocol sees of a state: of each thread only its code in
the protocol, and the values, queues and data.  A thread that sleeps in the
loop of `P` stands before the `P`, and one that has passed the `P` of an
`Acquire` stands behind the `Acquire`.

`Config.Step` is one step as the protocol sees it.  `config_step` proves that
every step of the synchronization layer is such a step, so an invariant of
`Config.Step` holds in every run of the kernel.
-/

namespace Nachos.Threads

open Function Lib

variable {ι σ η : Type}

/-- What a protocol keeps for itself. -/
structure Reserved (ι : Type) where
  sem : SemId → Bool
  cond : Nat → Bool
  /-- The instructions of the program outside the protocol, among them those
  that enter it. -/
  entry : ι → Bool

/-- Where the caller of a routine stands, in terms of calls. -/
def Instr.settle : Instr ι → List (Instr ι)
  | .pLoop (.sem n) => [.call (.p n)]
  | .pLoop (.lock l) => [.call (.acquire l)]
  | .acquired _ => []
  | .waitReturn _ _ => []
  | i => [i]

/-- A code with the `V` operations of interrupt handlers before it. -/
def handled (ns : List Nat) (is : List (Instr ι)) : List (Instr ι) :=
  ns.map (fun n => .call (.v n)) ++ is

/-- The first instruction of such a code. -/
theorem handled_eq_cons {ns : List Nat} {is own : List (Instr ι)} {i : Instr ι}
    (h : handled ns is = i :: own) :
    (∃ n ns', ns = n :: ns' ∧ i = .call (.v n) ∧ own = handled ns' is) ∨
      ns = [] ∧ is = i :: own := by
  cases ns with
  | nil => exact Or.inr ⟨rfl, h⟩
  | cons n ns =>
      obtain ⟨hi, hown⟩ := List.cons.inj h
      exact Or.inl ⟨n, ns, rfl, hi.symm, hown.symm⟩

section Handled

variable {P : Type} {code : P → List (Instr ι)} {own : ThreadPtr → List (Instr ι)}
  {vs : ThreadPtr → List Nat} {place : ThreadPtr → P} {t : ThreadPtr}

/-- Every thread is at its place, with handlers before it.  One thread moves. -/
theorem handled_move (h : ∀ u, own u = handled (vs u) (code (place u))) (hvs : vs t = [])
    (p : P) (u : ThreadPtr) :
    update own t (code p) u = handled (vs u) (code (update place t p u)) := by
  by_cases hu : u = t
  · rw [hu, update_self, update_self, hvs]
    rfl
  · rw [update_of_ne hu, update_of_ne hu, h]

/-- The handlers before one thread change. -/
theorem handled_update (h : ∀ u, own u = handled (vs u) (code (place u))) (ns : List Nat)
    (u : ThreadPtr) :
    update own t (handled ns (code (place t))) u =
      handled (update vs t ns u) (code (place u)) := by
  by_cases hu : u = t
  · rw [hu, update_self, update_self]
  · rw [update_of_ne hu, update_of_ne hu, h]

variable {Φ : Type} [DecidableEq Φ] {undone : ThreadPtr → Φ} {phase : Φ} {n : Nat}
  {ns : List Nat}

/-- In the phases `undone` a thread has a `V` on the semaphore to do.  A handler with
such a `V` comes. -/
theorem undone_raise (hundone : Injective undone)
    (h : ∀ u, (vs u).count n = if phase = undone u then 1 else 0)
    (hphase : ∀ u, phase ≠ undone u) (hns : ns.count n = 1 + (vs t).count n) (u : ThreadPtr) :
    (update vs t ns u).count n = if undone t = undone u then 1 else 0 := by
  by_cases hu : u = t
  · rw [hu, update_self, hns, h t, if_neg (hphase t), if_pos rfl]
  · rw [update_of_ne hu, h u, if_neg (hphase u), if_neg fun e => hu (hundone e).symm]

/-- The `V` is done. -/
theorem undone_lower (hundone : Injective undone)
    (h : ∀ u, (vs u).count n = if undone t = undone u then 1 else 0) (hvs : vs t = n :: ns)
    (u : ThreadPtr) : (update vs t ns u).count n = 0 := by
  by_cases hu : u = t
  · have hcount := h t
    rw [hvs, List.count_cons_self, if_pos rfl] at hcount
    rw [hu, update_self]
    exact Nat.succ.inj hcount
  · rw [update_of_ne hu, h u, if_neg fun e => hu (hundone e).symm]

/-- A handler comes that has nothing to do with the semaphore. -/
theorem undone_stay (h : ∀ u, (vs u).count n = if phase = undone u then 1 else 0)
    (hns : ns.count n = (vs t).count n) (u : ThreadPtr) :
    (update vs t ns u).count n = if phase = undone u then 1 else 0 := by
  by_cases hu : u = t
  · rw [hu, update_self, hns, h t]
  · rw [update_of_ne hu, h u]

end Handled

namespace Reserved

variable (R : Reserved ι)

/-- A call that leaves the protocol alone. -/
def outsideCall : Call ι → Bool
  | .fork _ func => R.entry func
  | .p n => !R.sem (.sem n)
  | .v n => !R.sem (.sem n)
  | .acquire l => !R.sem (.lock l)
  | .release l => !R.sem (.lock l)
  | .wait c l => !R.cond c && !R.sem (.lock l)
  | .signal c _ => !R.cond c
  | .broadcast c _ => !R.cond c
  | .client i => R.entry i
  | _ => true

/-- An instruction that leaves the protocol alone. -/
def outside : Instr ι → Bool
  | .call c => R.outsideCall c
  | .waitAppend c => !R.cond c
  | _ => true

/-- A code without the part behind the protocol. -/
def inner : List (Instr ι) → List (Instr ι)
  | [] => []
  | i :: is =>
      match inner is with
      | [] => if R.outside i then [] else [i]
      | j :: js => i :: j :: js

/-- The code of the protocol when `is` is put before it. -/
def join (is own : List (Instr ι)) : List (Instr ι) :=
  match own with
  | [] => R.inner is
  | j :: js => is ++ j :: js

/-- The code of the protocol in the code of a thread. -/
def own (is : List (Instr ι)) : List (Instr ι) := R.inner (is.flatMap Instr.settle)

variable {R} {is js own : List (Instr ι)} {i : Instr ι}

theorem inner_cons (i : Instr ι) (is : List (Instr ι)) :
    R.inner (i :: is) = R.join [i] (R.inner is) := by
  cases h : R.inner is with
  | nil => simp [inner, join, h]
  | cons j js => simp [inner, join, h]

theorem join_nil (is : List (Instr ι)) : R.join is [] = R.inner is := rfl

theorem join_of_ne_nil (h : own ≠ []) (is : List (Instr ι)) : R.join is own = is ++ own := by
  cases own with
  | nil => exact absurd rfl h
  | cons j js => rfl

theorem inner_append (is js : List (Instr ι)) :
    R.inner (is ++ js) = R.join is (R.inner js) := by
  induction is with
  | nil =>
      cases h : R.inner js with
      | nil => simp [join, inner, h]
      | cons j js => simp [join, h]
  | cons i is ih =>
      rw [List.cons_append, inner_cons, ih]
      cases h : R.inner js with
      | nil =>
          rw [join_nil, join_nil]
          exact (inner_cons i is).symm
      | cons j js =>
          have hne : is ++ j :: js ≠ [] := by simp
          exact join_of_ne_nil hne [i]

/-- Code outside the protocol. -/
theorem inner_eq_nil (h : ∀ i ∈ is, R.outside i = true) : R.inner is = [] := by
  induction is with
  | nil => rfl
  | cons i is ih =>
      rw [inner_cons, ih fun j hj => h j (List.mem_cons_of_mem i hj), join_nil]
      simp [inner, h i List.mem_cons_self]

theorem own_append (is js : List (Instr ι)) :
    R.own (is ++ js) = R.join (is.flatMap Instr.settle) (R.own js) := by
  rw [own, List.flatMap_append, inner_append]
  rfl

/-- An instruction before code of the protocol: it is outside the protocol and
nothing follows, or it is the first of the code. -/
theorem join_singleton (i : Instr ι) (own : List (Instr ι)) :
    R.join [i] own = [] ∧ own = [] ∧ R.outside i = true ∨ R.join [i] own = i :: own := by
  cases own with
  | nil =>
      rw [join_nil]
      by_cases hout : R.outside i = true
      · exact Or.inl ⟨by simp [inner, hout], rfl, hout⟩
      · exact Or.inr (by simp [inner, hout])
  | cons j js => exact Or.inr rfl

/-- The first instruction of a thread is outside the protocol, with all that
follows, or it is the first of its code in the protocol. -/
theorem own_cons (hi : i.settle = [i]) (is : List (Instr ι)) :
    R.own (i :: is) = [] ∧ R.own is = [] ∧ R.outside i = true ∨
      R.own (i :: is) = i :: R.own is := by
  have hcons : R.own (i :: is) = R.join [i] (R.own is) := by
    rw [← List.singleton_append, own_append]
    simp [hi]
  rw [hcons]
  exact R.join_singleton i (R.own is)

/-- Calls are where they stand. -/
theorem flatMap_settle_calls (cs : List (Call ι)) :
    (synchCode (cs.map Instr.call)).flatMap Instr.settle = synchCode (cs.map Instr.call) := by
  induction cs with
  | nil => rfl
  | cons c cs ih =>
      rw [List.map_cons, synchCode, List.filter_cons]
      split
      · rw [List.flatMap_cons, ← synchCode, ih]
        rfl
      · exact ih

/-- Of the `V` operations of a handler, those up to the last one on a reserved
semaphore are in the protocol. -/
theorem inner_handled (R : Reserved ι) (ns : List Nat) :
    ∃ ns', R.inner (handled ns []) = handled ns' [] ∧
      ∀ n, R.sem (.sem n) = true → ns'.count n = ns.count n := by
  induction ns with
  | nil => exact ⟨[], rfl, fun _ _ => rfl⟩
  | cons n ns ih =>
      obtain ⟨ns', hinner, hcount⟩ := ih
      have hcons : R.inner (handled (n :: ns) []) = R.join [.call (.v n)] (handled ns' []) := by
        rw [← hinner]
        exact inner_cons _ _
      rw [hcons]
      by_cases hn : ns' = [] ∧ R.sem (.sem n) = false
      · refine ⟨[], ?_, fun m hm => ?_⟩
        · rw [hn.1]
          simp [handled, join, inner, outside, outsideCall, hn.2]
        · have hne : n ≠ m := fun e => by
            rw [e, hm] at hn
            cases hn.2
          rw [List.count_cons_of_ne hne, ← hcount m hm, hn.1]
      · refine ⟨n :: ns', ?_, fun m hm => ?_⟩
        · cases ns' with
          | nil =>
              have hsem : R.sem (.sem n) = true := eq_true_of_ne_false fun e => hn ⟨rfl, e⟩
              simp [handled, join, inner, outside, outsideCall, hsem]
          | cons m ms => rfl
        · rw [List.count_cons, List.count_cons, hcount m hm]

/-- The code of the protocol in a thread that a device interrupts. -/
theorem join_handled (R : Reserved ι) (ns vs : List Nat) (is : List (Instr ι)) :
    ∃ vs', R.join (handled ns []) (handled vs is) = handled vs' is ∧
      ∀ n, R.sem (.sem n) = true → vs'.count n = ns.count n + vs.count n := by
  by_cases hnil : handled vs is = []
  · obtain ⟨hvs, his⟩ := List.append_eq_nil_iff.mp hnil
    obtain ⟨ns', hinner, hcount⟩ := R.inner_handled ns
    rw [List.map_eq_nil_iff] at hvs
    refine ⟨ns', ?_, fun n hn => ?_⟩
    · rw [hnil, join_nil, hinner, his]
    · rw [hcount n hn, hvs]
      rfl
  · refine ⟨ns ++ vs, ?_, fun n _ => List.count_append⟩
    rw [join_of_ne_nil hnil]
    simp [handled]

end Reserved

/-! ## Configurations -/

/-- What a protocol sees of a state. -/
@[ext] structure Config (ι σ : Type) where
  own : ThreadPtr → List (Instr ι)
  value : SemId → Int
  queue : Nat → List ThreadPtr
  shared : σ

/-- The configuration of a state of the synchronization layer. -/
def Synch.config (R : Reserved ι) (m : Synch ι σ) : Config ι σ where
  own t := R.own (m.todo t)
  value := m.value
  queue c := m.queue (.cond c)
  shared := m.shared

namespace Config

/-- Replace the code of a thread. -/
def setOwn (c : Config ι σ) (t : ThreadPtr) (is : List (Instr ι)) : Config ι σ :=
  { c with own := update c.own t is }

/-- A `P` takes a unit. -/
def take (c : Config ι σ) (s : SemId) : Config ι σ :=
  { c with value := update c.value s (i32 (c.value s - 1)) }

/-- A `V` adds a unit. -/
def post (c : Config ι σ) (s : SemId) : Config ι σ :=
  { c with value := update c.value s (i32 (c.value s + 1)) }

/-- The first `n` threads leave the queue of a condition. -/
def wake (c : Config ι σ) (q n : Nat) : Config ι σ :=
  { c with queue := update c.queue q ((c.queue q).drop n) }

theorem take_self (c : Config ι σ) (s : SemId) : (c.take s).value s = i32 (c.value s - 1) :=
  update_self _ _ _

theorem take_of_ne {s s' : SemId} (h : s' ≠ s) (c : Config ι σ) :
    (c.take s).value s' = c.value s' :=
  update_of_ne h _ _

theorem post_self (c : Config ι σ) (s : SemId) : (c.post s).value s = i32 (c.value s + 1) :=
  update_self _ _ _

theorem post_of_ne {s s' : SemId} (h : s' ≠ s) (c : Config ι σ) :
    (c.post s).value s' = c.value s' :=
  update_of_ne h _ _

/-- Thread `t` executes the first instruction of its code in the protocol, and
`own` is the code behind it.  Whether a `Signal` finds the lock held is left
open. -/
def Executes (R : Reserved ι) (prog : Program ι σ η) (t : ThreadPtr) (c : Config ι σ)
    (own : List (Instr ι)) (c' : Config ι σ) : Instr ι → Prop
  | .call (.p n) => c.value (.sem n) ≠ 0 ∧ c' = (c.take (.sem n)).setOwn t own
  | .call (.acquire l) => c.value (.lock l) ≠ 0 ∧ c' = (c.take (.lock l)).setOwn t own
  | .call (.v n) => c' = (c.post (.sem n)).setOwn t own
  | .call (.release l) => c' = (c.post (.lock l)).setOwn t own
  | .call (.wait q l) =>
      c' = (c.post (.lock l)).setOwn t (R.join [.waitAppend q, .call (.acquire l)] own)
  | .waitAppend q => c' = { c with queue := update c.queue q (c.queue q ++ [t]) }.setOwn t own
  | .call (.signal q _) => c' = c.setOwn t own ∨ c' = (c.wake q 1).setOwn t own
  | .call (.broadcast q _) =>
      c' = c.setOwn t own ∨ c' = (c.wake q (c.queue q).length).setOwn t own
  | .call (.client i) => ∃ s r, s.currentThread = t ∧ prog.exec s i c.shared = some r ∧
      c' = { c with shared := r.1 }.setOwn t (R.join (synchCode (r.2.map Instr.call)) own)
  | .call (.fork u func) => u ≠ t ∧ c.own u = [] ∧
      c' = (c.setOwn t own).setOwn u (R.own [.call (.client func), .call .finish])
  | .call .finish => c' = c.setOwn t []
  | _ => False

/-- One step of thread `t` as the protocol sees it. -/
inductive Step (R : Reserved ι) (prog : Program ι σ η) (t : ThreadPtr) :
    Config ι σ → Config ι σ → Prop where
  /-- The step leaves the protocol alone. -/
  | outside {c c'} (hown : c'.own = c.own) (hvalue : ∀ s, R.sem s = true → c'.value s = c.value s)
      (hqueue : ∀ q, R.cond q = true → c'.queue q = c.queue q) (hshared : c'.shared = c.shared) :
      Step R prog t c c'
  /-- The program executes an instruction outside the protocol. -/
  | enter {c i r} (s : Sched) (hown : c.own t = []) (hi : R.entry i = true)
      (hs : s.currentThread = t) (hexec : prog.exec s i c.shared = some r) :
      Step R prog t c
        ({ c with shared := r.1 }.setOwn t (R.inner (synchCode (r.2.map Instr.call))))
  /-- The thread executes code of the protocol. -/
  | exec {c c' i own} (hown : c.own t = i :: own) (hexec : Executes R prog t c own c' i) :
      Step R prog t c c'
  /-- A device acts. -/
  | device {c d r} (hexec : prog.handler d c.shared = some r) :
      Step R prog t c
        ({ c with shared := r.1 }.setOwn t
          (R.join (handled r.2 []) (c.own t)))

end Config

/-! ## Every step of the layer is a step of the protocol -/

section Step

variable {R : Reserved ι} {prog : Program ι σ η} {m m' : Synch ι σ} {t : ThreadPtr} {i : Instr ι}

/-- The code of the thread is all that changes in the code. -/
theorem config_setTodo (m : Synch ι σ) (t : ThreadPtr) (is : List (Instr ι)) :
    (m.setTodo t is).config R = (m.config R).setOwn t (R.own is) := by
  ext1
  case own =>
    funext u
    by_cases hu : u = t
    · subst hu
      simp [Synch.config, Synch.setTodo, Config.setOwn]
    · simp [Synch.config, Synch.setTodo, Config.setOwn, update_of_ne hu]
  all_goals rfl

/-- A step after which the thread stands at the same place. -/
theorem step_outside {is : List (Instr ι)} (his : R.own is = R.own (m.todo t))
    (htodo : m'.todo = m.todo)
    (hvalue : ∀ s, R.sem s = true → m'.value s = m.value s)
    (hqueue : ∀ q, R.cond q = true → m'.queue (.cond q) = m.queue (.cond q))
    (hshared : m'.shared = m.shared) :
    Config.Step R prog t (m.config R) ((m'.setTodo t is).config R) := by
  rw [config_setTodo]
  refine .outside ?_ hvalue hqueue hshared
  funext u
  by_cases hu : u = t
  · subst hu
    simp [Config.setOwn, Synch.config, his]
  · simp [Config.setOwn, Synch.config, update_of_ne hu, htodo]

/-- A step that executes the first instruction: it is outside the protocol, or
it is executed by the protocol. -/
theorem step_head {c' : Config ι σ} {rest : List (Instr ι)}
    (h : R.own (m.todo t) = R.own (i :: rest)) (hi : i.settle = [i])
    (hout : R.own (m.todo t) = [] → R.own rest = [] → R.outside i = true →
      Config.Step R prog t (m.config R) c')
    (hexec : Config.Executes R prog t (m.config R) (R.own rest) c' i) :
    Config.Step R prog t (m.config R) c' := by
  rcases R.own_cons hi rest with ⟨hnil, hrest, houtside⟩ | hcons
  · exact hout (h.trans hnil) hrest houtside
  · exact .exec (h.trans hcons) hexec

/-- The call that tests a semaphore. -/
def testCall : SemId → Instr ι
  | .sem n => .call (.p n)
  | .lock l => .call (.acquire l)

/-- A thread in the loop of a `P` stands before the `P`. -/
theorem flatMap_settle_tests {s : SemId} {cont : List (Instr ι)}
    (hi : i.tests = some (s, cont)) : i.settle = [testCall s] ∧
      cont.flatMap Instr.settle = [] ∧ (.pLoop s :: cont).flatMap Instr.settle = [testCall s] := by
  rcases Instr.tests_cases hi with ⟨n, rfl, rfl, rfl⟩ | ⟨l, rfl, rfl, rfl⟩ | ⟨rfl, rfl⟩
  · exact ⟨rfl, rfl, rfl⟩
  · exact ⟨rfl, rfl, rfl⟩
  · cases s <;> exact ⟨rfl, rfl, rfl⟩

/-- The calls of the program that follow an instruction. -/
theorem own_calls (cs : List (Call ι)) (rest : List (Instr ι)) :
    R.own (synchCode (cs.map Instr.call) ++ rest) =
      R.join (synchCode (cs.map Instr.call)) (R.own rest) := by
  rw [R.own_append, Reserved.flatMap_settle_calls]

theorem own_calls_outside {cs : List (Call ι)} (h : ∀ c ∈ cs, R.outsideCall c = true) :
    R.inner (synchCode (cs.map Instr.call)) = [] := by
  refine Reserved.inner_eq_nil fun i hi => ?_
  obtain ⟨c, hc, rfl⟩ := List.mem_map.mp (List.mem_of_mem_filter hi)
  exact h c hc

/-- The `V` operations of a handler come before the code of the thread. -/
theorem own_handler (ns : List Nat) (is : List (Instr ι)) :
    R.own (handled ns is) = R.join (handled ns []) (R.own is) := by
  have hsettle : (handled ns ([] : List (Instr ι))).flatMap Instr.settle = handled ns [] := by
    induction ns with
    | nil => rfl
    | cons n ns ih => exact congrArg (.call (.v n) :: ·) ih
  have happend : handled ns is = handled ns [] ++ is := by
    simp [handled]
  rw [happend, R.own_append, hsettle]

/-- A new thread starts outside the protocol, if its function does. -/
theorem own_fork {func : ι} (h : R.entry func = true) :
    R.own [.call (.client func), .call .finish] = [] := by
  refine Reserved.inner_eq_nil fun i hi => ?_
  simp only [List.flatMap_cons, List.flatMap_nil, Instr.settle, List.mem_append,
    List.mem_singleton, List.not_mem_nil, or_false] at hi
  rcases hi with rfl | rfl
  · exact h
  · rfl

theorem cond_ne_cond {q c : Nat} (h : q ≠ c) : QueueId.cond q ≠ .cond c :=
  fun e => h (QueueId.cond.inj e)

theorem config_v (m : Synch ι σ) (s : SemId) : (m.v s).config R = (m.config R).post s := by
  ext1
  case queue =>
    funext q
    show update m.queue (.sem s) (m.queue (.sem s)).tail (.cond q) = m.queue (.cond q)
    exact update_of_ne (by simp) _ _
  all_goals rfl

theorem config_pass (m : Synch ι σ) (t : ThreadPtr) (s : SemId) :
    (m.pass t s).config R = (m.config R).take s := rfl

theorem config_release (m : Synch ι σ) (t : ThreadPtr) (l : Nat) :
    (m.release t l).config R = (m.config R).post (.lock l) := by
  rw [Synch.release, config_v]
  rfl

theorem config_wake (m : Synch ι σ) (c n : Nat) :
    (m.wake c n).config R = (m.config R).wake c n := by
  ext1
  case queue =>
    funext q
    show update m.queue (.cond c) ((m.queue (.cond c)).drop n) (.cond q) =
      update (fun q => m.queue (.cond q)) c ((m.queue (.cond c)).drop n) q
    by_cases hq : q = c
    · rw [hq, update_self, update_self]
    · rw [update_of_ne (cond_ne_cond hq), update_of_ne hq]
  all_goals rfl

theorem config_block (m : Synch ι σ) (t : ThreadPtr) (c : Nat) :
    (m.block t (.cond c)).config R =
      { m.config R with
        queue := update (m.config R).queue c ((m.config R).queue c ++ [t]) } := by
  ext1
  case queue =>
    funext q
    show update m.queue (.cond c) (m.queue (.cond c) ++ [t]) (.cond q) =
      update (fun q => m.queue (.cond q)) c (m.queue (.cond c) ++ [t]) q
    by_cases hq : q = c
    · rw [hq, update_self, update_self]
    · rw [update_of_ne (cond_ne_cond hq), update_of_ne hq]
  all_goals rfl

/-- A semaphore outside the protocol is another one than a reserved one. -/
theorem ne_of_reserved {s s' : SemId} (hs : R.sem s = false) (hs' : R.sem s' = true) :
    s' ≠ s := by
  intro e
  rw [e, hs] at hs'
  cases hs'

/-- A change of a condition outside the protocol. -/
theorem queue_update {queue : Nat → List ThreadPtr} {c q : Nat} {ts : List ThreadPtr}
    (hc : R.cond c = false) (hq : R.cond q = true) : update queue c ts q = queue q := by
  refine update_of_ne ?_ _ _
  intro e
  rw [e, hc] at hq
  cases hq

/-- A step of thread `t` that is outside the protocol. -/
theorem step_setOwn {c c' : Config ι σ} (hown : c'.own = c.own) (ht : c.own t = [])
    (hvalue : ∀ s, R.sem s = true → c'.value s = c.value s)
    (hqueue : ∀ q, R.cond q = true → c'.queue q = c.queue q) (hshared : c'.shared = c.shared) :
    Config.Step R prog t c (c'.setOwn t []) := by
  refine .outside ?_ hvalue hqueue hshared
  show update c'.own t [] = c.own
  rw [hown, ← ht, update_eq_self]

/-- A thread increments a semaphore, or releases a lock. -/
theorem step_post {s : SemId} {rest : List (Instr ι)} (h : m.todo t = i :: rest)
    (hi : i.settle = [i]) (hs : R.outside i = true → R.sem s = false)
    (hexec : Config.Executes R prog t (m.config R) (R.own rest)
      (((m.config R).post s).setOwn t (R.own rest)) i) :
    Config.Step R prog t (m.config R) (((m.config R).post s).setOwn t (R.own rest)) := by
  refine step_head (congrArg R.own h) hi (fun hnil hrest hsem => ?_) hexec
  rw [hrest]
  exact step_setOwn rfl hnil (fun _ hs' => Config.post_of_ne (ne_of_reserved (hs hsem) hs') _)
    (fun _ _ => rfl) rfl

theorem settle_of_wakes {c l n : Nat} (hi : m.wakes i = some (c, l, n)) :
    i.settle = [i] := by
  rcases Synch.wakes_cases hi with rfl | rfl
  · rfl
  · rfl

/-- A step of the layer is a step of the protocol. -/
theorem config_step {o : Label ι} (hstep : Synch.Step prog t o m m')
    (hstart : ∀ cs, o = .start cs → ∀ c ∈ cs, R.outsideCall c = true) :
    Config.Step R prog t (m.config R) (m'.config R) := by
  cases hstep with
  | quiet m ho | newThread m ho => exact .outside rfl (fun _ _ => rfl) (fun _ _ => rfl) rfl
  | @fork _ u func rest h hut hfresh =>
      have hu : (m.config R).own u = [] := by
        show R.own (m.todo u) = []
        rw [hfresh]
        rfl
      rw [config_setTodo, config_setTodo]
      refine step_head (congrArg R.own h) rfl (fun hnil hrest hentry => ?_) ⟨hut, hu, rfl⟩
      have hsame : (m.config R).setOwn t [] = m.config R := by
        show { m.config R with own := update (m.config R).own t [] } = m.config R
        rw [show ([] : List (Instr ι)) = (m.config R).own t from hnil.symm, update_eq_self]
      rw [own_fork hentry, hrest, hsame, ← hu]
      exact .outside (update_eq_self _ _) (fun _ _ => rfl) (fun _ _ => rfl) rfl
  | @finish _ rest h hrest =>
      rw [config_setTodo]
      refine step_head (congrArg R.own h) rfl (fun hnil _ _ => ?_) rfl
      exact step_setOwn rfl hnil (fun _ _ => rfl) (fun _ _ => rfl) rfl
  | @client _ i rest r s h hs hexec =>
      rw [config_setTodo, own_calls]
      refine step_head (congrArg R.own h) rfl (fun hnil hrest hentry => ?_)
        ⟨s, r, hs, hexec, rfl⟩
      rw [hrest]
      exact .enter s hnil hentry hs hexec
  | @block _ i rest s cont h hi hv =>
      obtain ⟨hsettle, _, hloop⟩ := flatMap_settle_tests hi
      refine step_outside ?_ rfl (fun _ _ => rfl) (fun _ _ => rfl) rfl
      rw [h, R.own_append, ← List.singleton_append (l := rest), R.own_append, hloop]
      simp [hsettle]
  | @pass _ i rest s cont h hi hv =>
      obtain ⟨hsettle, hcont, _⟩ := flatMap_settle_tests hi
      have hown : R.own (cont ++ rest) = R.own rest := by
        rw [Reserved.own, List.flatMap_append, hcont]
        rfl
      have hcall : (testCall s : Instr ι).settle = [testCall s] := by
        cases s <;> rfl
      have hhead : R.own (m.todo t) = R.own (testCall s :: rest) := by
        rw [h, Reserved.own, Reserved.own, List.flatMap_cons, List.flatMap_cons, hsettle, hcall]
      rw [config_setTodo, config_pass, hown]
      refine step_head hhead hcall (fun hnil hrest hsem => ?_) ?_
      · have hs : R.sem s = false := by
          cases s <;> simpa [testCall, Reserved.outside, Reserved.outsideCall] using hsem
        rw [hrest]
        exact step_setOwn rfl hnil (fun _ hs' => Config.take_of_ne (ne_of_reserved hs hs') _)
          (fun _ _ => rfl) rfl
      · cases s with
        | sem n => exact ⟨hv, rfl⟩
        | lock l => exact ⟨hv, rfl⟩
  | @v _ n rest h =>
      rw [config_setTodo, config_v]
      refine step_post h rfl (fun hsem => ?_) rfl
      simpa [Reserved.outside, Reserved.outsideCall] using hsem
  | @release _ l rest h =>
      rw [config_setTodo, config_release]
      refine step_post h rfl (fun hsem => ?_) rfl
      simpa [Reserved.outside, Reserved.outsideCall] using hsem
  | @wait _ c l rest h =>
      have hown : R.own (.waitAppend c :: .call (.acquire l) :: .waitReturn c l :: rest) =
          R.join [.waitAppend c, .call (.acquire l)] (R.own rest) :=
        R.own_append [.waitAppend c, .call (.acquire l), .waitReturn c l] rest
      rw [config_setTodo, config_release, hown]
      refine step_head (congrArg R.own h) rfl (fun hnil hrest hboth => ?_) rfl
      have hout : R.cond c = false ∧ R.sem (.lock l) = false := by
        simpa [Reserved.outside, Reserved.outsideCall] using hboth
      have hjoin : R.join [.waitAppend c, .call (.acquire l)] [] = [] := by
        simp [Reserved.join_nil, Reserved.inner, Reserved.outside, Reserved.outsideCall, hout]
      rw [hrest, hjoin]
      exact step_setOwn rfl hnil (fun _ hs' => Config.post_of_ne (ne_of_reserved hout.2 hs') _)
        (fun _ _ => rfl) rfl
  | @wake _ i rest c l n h hi hh =>
      rw [config_setTodo, config_wake]
      refine step_head (congrArg R.own h) (settle_of_wakes hi) (fun hnil hrest hcond => ?_) ?_
      · have hc : R.cond c = false := by
          rcases Synch.wakes_cases hi with rfl | rfl
          · simpa [Reserved.outside, Reserved.outsideCall] using hcond
          · simpa [Reserved.outside, Reserved.outsideCall] using hcond
        rw [hrest]
        exact step_setOwn rfl hnil (fun _ _ => rfl) (fun q hq => queue_update hc hq) rfl
      · rcases Synch.wakes_cases hi with rfl | rfl
        · cases hi
          exact Or.inr rfl
        · cases hi
          exact Or.inr rfl
  | @noWake _ i rest c l n h hi hh =>
      rw [config_setTodo]
      refine step_head (congrArg R.own h) (settle_of_wakes hi) (fun hnil hrest _ => ?_) ?_
      · rw [hrest]
        exact step_setOwn rfl hnil (fun _ _ => rfl) (fun _ _ => rfl) rfl
      · rcases Synch.wakes_cases hi with rfl | rfl
        · exact Or.inl rfl
        · exact Or.inl rfl
  | acquired h | waitReturn h =>
      refine step_outside ?_ rfl (fun _ _ => rfl) (fun _ _ => rfl) rfl
      rw [h]
      rfl
  | @waitAppend _ c rest h =>
      have hconfig : ((m.block t (.cond c)).record [.join t c]).config R = _ :=
        config_block m t c
      rw [config_setTodo, hconfig]
      refine step_head (congrArg R.own h) rfl (fun hnil hrest hcond => ?_) rfl
      have hc : R.cond c = false := by
        simpa [Reserved.outside] using hcond
      rw [hrest]
      exact step_setOwn rfl hnil (fun _ _ => rfl) (fun q hq => queue_update hc hq) rfl
  | start cs h =>
      refine step_outside ?_ rfl (fun _ _ => rfl) (fun _ _ => rfl) rfl
      rw [h, Reserved.own, Reserved.flatMap_settle_calls, own_calls_outside (hstart cs rfl)]
      rfl
  | @interrupt _ d r h =>
      rw [config_setTodo, ← handled, own_handler]
      exact .device h

end Step

/-! ## Runs of the kernel -/

namespace Kernel

/-- What the protocol sees of a state of the kernel. -/
def config (R : Reserved ι) (k : Kernel ι σ) : Config ι σ := k.synch.config R

/-- The calls of the main thread leave the protocol alone. -/
def OutsideStart (R : Reserved ι) : Action ι η → Prop
  | .start cs => ∀ c ∈ cs, R.outsideCall c = true
  | _ => True

instance (R : Reserved ι) (a : Action ι η) : Decidable (OutsideStart R a) :=
  decidable_of_iff
    ((match a with
      | .start cs => cs.all R.outsideCall
      | _ => true) = true)
    (by unfold OutsideStart; split <;> simp)

variable {R : Reserved ι}

theorem outsideStart_label {k : Kernel ι σ} {a : Action ι η}
    (h : OutsideStart R a) : ∀ cs, k.label a = .start cs → ∀ c ∈ cs, R.outsideCall c = true := by
  intro cs hl
  cases a with
  | start cs' =>
      cases hl
      exact h
  | exec =>
      simp only [label] at hl
      split at hl <;> cases hl
  | interrupt d => cases hl
  | timer => cases hl

/-- Every step of the kernel is a step of the protocol. -/
theorem step_config {prog : Program ι σ η} {k k' : Kernel ι σ} {a : Action ι η} (h : k.Control)
    (hok : k.ForkOnce a ∧ OutsideStart R a) (hstep : k.step prog a = some k') :
    k'.Control ∧ Config.Step R prog k.cur (k.config R) (k'.config R) :=
  ⟨control_step h hok.1 hstep,
    config_step (synch_step h hok.1 hstep) (outsideStart_label hok.2)⟩

/-- An invariant of the protocol holds in every state that a run reaches. -/
theorem config_invariant {prog : Program ι σ η} {I : Config ι σ → Prop}
    (hI : ∀ t c c', I c → Config.Step R prog t c c' → I c') {k0 k : Kernel ι σ}
    {as : List (Action ι η)} (h0 : k0.Control) (hI0 : I (k0.config R))
    (hok : Along (step prog) (fun k a => k.ForkOnce a ∧ OutsideStart R a) k0 as)
    (hrun : run (step prog) k0 as = some k) : I (k.config R) := by
  refine (run_invariant (I := fun k => k.Control ∧ I (k.config R)) ?_ ⟨h0, hI0⟩ hok hrun).2
  intro k a k' ⟨hk, hIk⟩ hoka hstep
  have hconfig := step_config hk hoka hstep
  exact ⟨hconfig.1, hI k.cur _ _ hIk hconfig.2⟩

end Kernel

end Nachos.Threads

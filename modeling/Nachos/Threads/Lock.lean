import Nachos.Threads.Semaphore

/-!
# Locks

`Acquire` is a `P` on a semaphore with initial value one, followed by the
assignment of `holdingThread`, and a context switch can happen between the
two.  `Release` is a `V`.

The history says in which phase of a lock each thread is: outside, past the
`P` of `Acquire`, or holding the lock.  `Covered` reads the code of a thread
against its phase: the end of `Acquire` is reached only past the `P`, and the
return of `Wait` only with the lock held.

The callers promise that a thread calls `Release`, directly or inside `Wait`,
only on a lock that it holds.
-/

namespace Nachos.Threads

open Function Lib

variable {ι σ η : Type} {is : List (Instr ι)} {l : Nat}

/-- The phases of a thread with respect to a lock. -/
inductive LockPhase where
  | out
  | passed
  | held
  deriving DecidableEq, Repr

/-- The phase of thread `t` with respect to lock `l` after an event. -/
def LockPhase.next (t : ThreadPtr) (l : Nat) (ph : LockPhase) : Event → LockPhase
  | .pDone u (.lock l') => if u = t ∧ l' = l then .passed else ph
  | .acquired u l' => if u = t ∧ l' = l then .held else ph
  | .release u l' => if u = t ∧ l' = l then .out else ph
  | _ => ph

/-- The phase of a thread with respect to a lock. -/
def lockPhase (log : List Event) (t : ThreadPtr) (l : Nat) : LockPhase :=
  log.foldl (LockPhase.next t l) .out

/-- The thread is between the completion of `Acquire` and the start of
`Release`. -/
def Holds (log : List Event) (t : ThreadPtr) (l : Nat) : Prop :=
  lockPhase log t l = .held

instance (log : List Event) (t : ThreadPtr) (l : Nat) : Decidable (Holds log t l) :=
  inferInstanceAs (Decidable (_ = _))

theorem lockPhase_append (log es : List Event) (t : ThreadPtr) (l : Nat) :
    lockPhase (log ++ es) t l = es.foldl (LockPhase.next t l) (lockPhase log t l) :=
  List.foldl_append

/-- Events that do not concern the thread and the lock. -/
theorem foldl_next_eq {es : List Event} {t : ThreadPtr}
    (hes : ∀ e ∈ es, ∀ ph, LockPhase.next t l ph e = ph) (ph : LockPhase) :
    es.foldl (LockPhase.next t l) ph = ph := by
  induction es with
  | nil => rfl
  | cons e es ih =>
    rw [List.foldl_cons, hes e List.mem_cons_self]
    exact ih fun e' he' => hes e' (List.mem_cons_of_mem e he')

/-- The phases after events of thread `t` about the lock. -/
theorem lockPhase_update {log es : List Event} {t : ThreadPtr} {ph : LockPhase}
    (ht : es.foldl (LockPhase.next t l) (lockPhase log t l) = ph)
    (hu : ∀ u, u ≠ t → ∀ e ∈ es, ∀ ph, LockPhase.next u l ph e = ph) (u : ThreadPtr) :
    lockPhase (log ++ es) u l = update (fun u => lockPhase log u l) t ph u := by
  rw [lockPhase_append]
  by_cases hut : u = t
  · rw [hut, update_self, ht]
  · rw [update_of_ne hut, foldl_next_eq (hu u hut)]

/-- The `P` of another semaphore. -/
theorem next_pDone_of_ne {s : SemId} (hs : s ≠ .lock l) (t u : ThreadPtr) :
    ∀ e ∈ [Event.pDone t s], ∀ ph, LockPhase.next u l ph e = ph := by
  cases s with
  | sem n => simp [LockPhase.next]
  | lock l' => simp_all [LockPhase.next]

theorem next_wake (us : List ThreadPtr) (c l : Nat) (u : ThreadPtr) :
    ∀ e ∈ us.map (Event.wake · c), ∀ ph, LockPhase.next u l ph e = ph := by
  intro e he ph
  obtain ⟨w, _, rfl⟩ := List.mem_map.mp he
  rfl

/-- Code of a program, outside the routines. -/
def Own (is : List (Instr ι)) : Prop := ∀ i ∈ is, ∃ c, i = .call c

/-- The code of a thread in phase `ph` of lock `l` reaches the end of
`Acquire` past the `P`, and the return of `Wait` with the lock. -/
def Covered (l : Nat) : LockPhase → List (Instr ι) → Prop
  | _, [] => True
  | ph, .pLoop s :: is => Covered l (if s = .lock l then .passed else ph) is
  | ph, .acquired l' :: is =>
      (l' = l → ph = .passed) ∧ Covered l (if l' = l then .held else ph) is
  | ph, .waitAppend _ :: is => Covered l ph is
  | ph, .waitReturn _ l' :: is => (l' = l → ph = .held) ∧ Own is
  | ph, .call (.acquire l') :: is => Covered l (if l' = l then .held else ph) is
  | ph, .call (.v _) :: is => Covered l ph is
  | _, _ :: is => Own is

theorem Own.tail {i : Instr ι} (h : Own (i :: is)) : Own is :=
  fun j hj => h j (List.mem_cons_of_mem i hj)

theorem own_map_call (cs : List (Call ι)) : Own (synchCode (cs.map Instr.call)) := by
  intro i hi
  obtain ⟨c, _, rfl⟩ := List.mem_map.mp (List.mem_of_mem_filter hi)
  exact ⟨c, rfl⟩

theorem Own.append {is js : List (Instr ι)} (h : Own is) (h' : Own js) : Own (is ++ js) := by
  intro i hi
  rcases List.mem_append.mp hi with hi | hi
  · exact h i hi
  · exact h' i hi

/-- Code outside the routines can run in every phase. -/
theorem Own.covered (h : Own is) (ph : LockPhase) :
    Covered l ph is := by
  induction is generalizing ph with
  | nil => trivial
  | cons i is ih =>
    obtain ⟨c, rfl⟩ := h i List.mem_cons_self
    cases c with
    | acquire l' => exact ih h.tail _
    | v n => exact ih h.tail ph
    | _ => exact h.tail

/-- The `V` operations of a handler do not change a phase. -/
theorem covered_map_v {ph : LockPhase} (ns : List Nat)
    (h : Covered l ph is) : Covered l ph (ns.map (fun n => .call (.v n)) ++ is) := by
  induction ns with
  | nil => exact h
  | cons n ns ih => exact ih

namespace Synch

/-- The threads that have passed the `P` of a lock without having called
`V`. -/
def inside (m : Synch ι σ) (l : Nat) : Finset ThreadPtr :=
  (Finset.range m.created).filter fun t => lockPhase m.log t l ≠ .out

/-- The invariant of one lock. -/
structure LockInv (l : Nat) (m : Synch ι σ) : Prop where
  nonneg : 0 ≤ m.value (.lock l)
  balance : m.value (.lock l) + (m.inside l).card = 1
  covered : ∀ t, Covered l (lockPhase m.log t l) (m.todo t)
  fresh : ∀ t, m.created ≤ t → lockPhase m.log t l = .out
  holder : ∀ t, Holds m.log t l → m.holdingThread l = some (m.address t)

/-- The promise of the callers: the thread releases the lock only when it
holds it. -/
def Disciplined (l : Nat) (m : Synch ι σ) (t : ThreadPtr) (o : Label ι) : Prop :=
  (o = .exec (.call (.release l)) → Holds m.log t l) ∧
    ∀ c, o = .exec (.call (.wait c l)) → Holds m.log t l

section Steps

variable {m m' : Synch ι σ} {l : Nat} {t : ThreadPtr} {o : Label ι} {is : List (Instr ι)}

/-- Only a thread that exists is inside. -/
theorem LockInv.lt_created (h : LockInv l m) (hne : lockPhase m.log t l ≠ .out) :
    t < m.created := by
  by_contra hle
  exact hne (h.fresh t (Nat.not_lt.mp hle))

/-- A step that changes the phase of no thread. -/
theorem LockInv.frame (h : LockInv l m) (hc : m.created ≤ m'.created)
    (ha : m'.address = m.address) (hv : m'.value (.lock l) = m.value (.lock l))
    (hh : m'.holdingThread l = m.holdingThread l)
    (hph : ∀ u, lockPhase m'.log u l = lockPhase m.log u l)
    (hcov : ∀ u, Covered l (lockPhase m.log u l) (m'.todo u)) : LockInv l m' where
  nonneg := hv ▸ h.nonneg
  balance := by
    have hin : m'.inside l = m.inside l := by
      ext u
      simp only [inside, Finset.mem_filter, Finset.mem_range, hph]
      constructor
      · rintro ⟨_, hne⟩
        exact ⟨h.lt_created hne, hne⟩
      · rintro ⟨hlt, hne⟩
        exact ⟨lt_of_lt_of_le hlt hc, hne⟩
    rw [hv, hin]
    exact h.balance
  covered u := by
    rw [hph]
    exact hcov u
  fresh u hu := by
    rw [hph]
    exact h.fresh u (hc.trans hu)
  holder u hu := by
    rw [Holds, hph] at hu
    rw [hh, ha]
    exact h.holder u hu

/-- A step of thread `t` with events that do not concern the lock. -/
theorem LockInv.keep {e : List Event} (h : LockInv l m) (hc : m'.created = m.created)
    (ha : m'.address = m.address) (hv : m'.value (.lock l) = m.value (.lock l))
    (hh : m'.holdingThread l = m.holdingThread l) (hlog : m'.log = m.log ++ e)
    (hes : ∀ u, ∀ x ∈ e, ∀ ph, LockPhase.next u l ph x = ph) (htodo : m'.todo = update m.todo t is)
    (his : Covered l (lockPhase m.log t l) is) :
    LockInv l m' := by
  refine h.frame hc.ge ha hv hh ?_ ?_
  · intro u
    rw [hlog, lockPhase_append, foldl_next_eq (hes u)]
  · intro u
    rw [htodo]
    by_cases hut : u = t
    · rw [hut, update_self]
      exact his
    · rw [update_of_ne hut]
      exact h.covered u

/-- A thread inside keeps the others out. -/
theorem LockInv.only (h : LockInv l m) (ht : lockPhase m.log t l ≠ .out) {u : ThreadPtr}
    (hut : u ≠ t) : lockPhase m.log u l = .out := by
  have hmem : ∀ w, lockPhase m.log w l ≠ .out → w ∈ m.inside l := by
    intro w hne
    simp [inside, h.lt_created hne, hne]
  have hnonneg := h.nonneg
  have hbal := h.balance
  by_contra hu
  exact hut (Finset.card_le_one.mp (by omega) u (hmem u hu) t (hmem t ht))

/-- The phase of one thread changes, together with the value and its code. -/
theorem LockInv.move (ph : LockPhase) (h : LockInv l m) (hlt : t < m.created)
    (hc : m'.created = m.created)
    (hph : ∀ u, lockPhase m'.log u l = update (fun u => lockPhase m.log u l) t ph u)
    (hout : ∀ u, u ≠ t → lockPhase m.log u l = .out)
    (hhold : ph = .held → m'.holdingThread l = some (m'.address t))
    (hother : ∀ u, u ≠ t → m'.todo u = m.todo u) (hcov : Covered l ph (m'.todo t))
    (hnonneg : 0 ≤ m'.value (.lock l))
    (hbal : m'.value (.lock l) + (if ph ≠ .out then 1 else 0) =
      m.value (.lock l) + if lockPhase m.log t l ≠ .out then 1 else 0) :
    LockInv l m' where
  nonneg := hnonneg
  balance := by
    have hcard : (m'.inside l).card + (if lockPhase m.log t l ≠ .out then 1 else 0) =
        (m.inside l).card + if ph ≠ .out then 1 else 0 := by
      simp only [inside, hc, hph]
      exact card_filter_update (Finset.mem_range.mpr hlt) _ ph (fun ph => ph ≠ .out)
    have hold := h.balance
    split_ifs at hcard hbal <;> omega
  covered u := by
    rw [hph]
    by_cases hut : u = t
    · rw [hut, update_self]
      exact hcov
    · rw [update_of_ne hut, hother u hut]
      exact h.covered u
  fresh u hu := by
    have hut : u ≠ t := by
      rintro rfl
      exact absurd hlt (Nat.not_lt.mpr (hc ▸ hu))
    rw [hph, update_of_ne hut]
    exact h.fresh u (hc ▸ hu)
  holder u hu := by
    rw [Holds, hph] at hu
    by_cases hut : u = t
    · rw [hut, update_self] at hu
      rw [hut]
      exact hhold hu
    · rw [update_of_ne hut, hout u hut] at hu
      cases hu

/-- While the value is positive every thread is outside. -/
theorem LockInv.out_of_value (h : LockInv l m) (hv : m.value (.lock l) ≠ 0) :
    m.value (.lock l) = 1 ∧ ∀ u, lockPhase m.log u l = .out := by
  have hnonneg := h.nonneg
  have hbal := h.balance
  have hcard : (m.inside l).card = 0 := by omega
  refine ⟨by omega, ?_⟩
  intro u
  by_contra hne
  have hmem : u ∈ m.inside l := by
    simp [inside, h.lt_created hne, hne]
  rw [Finset.card_eq_zero.mp hcard] at hmem
  simp at hmem

/-- The holder releases the lock. -/
theorem LockInv.release (h : LockInv l m) (hlt : t < m.created)
    (hheld : Holds m.log t l) (his : Covered l .out is) :
    LockInv l ((m.release t l).setTodo t is) := by
  have hlog : ((m.release t l).setTodo t is).log =
      m.log ++ [.release t l, .v (.lock l)] := by
    simp [Synch.release, Synch.v, Synch.record, Synch.setTodo]
  have hne : lockPhase m.log t l ≠ .out := by
    rw [hheld]
    simp
  have hzero : m.value (.lock l) = 0 := by
    by_contra hv
    exact hne ((h.out_of_value hv).2 t)
  have hvalue : ((m.release t l).setTodo t is).value (.lock l) = 1 := by
    show update m.value (.lock l) (i32 (m.value (.lock l) + 1)) (.lock l) = 1
    rw [update_self, hzero]
    rfl
  refine h.move .out hlt rfl ?_ (fun u => h.only hne) (by intro hc; cases hc) ?_ ?_ ?_ ?_
  · rw [hlog]
    apply lockPhase_update
    · simp [LockPhase.next]
    · intro u hut
      simp [LockPhase.next, Ne.symm hut]
  · intro u hut
    exact update_of_ne hut _ _
  · simpa [Synch.setTodo] using his
  · omega
  · rw [hvalue, hzero, if_pos hne, if_neg (by simp)]
    rfl

/-- A `P` on the lock completes. -/
theorem LockInv.pass (h : LockInv l m) (hlt : t < m.created)
    (hv : m.value (.lock l) ≠ 0) (his : Covered l .passed is) :
    LockInv l ((m.pass t (.lock l)).setTodo t is) := by
  obtain ⟨hone, hout⟩ := h.out_of_value hv
  have hvalue : ((m.pass t (.lock l)).setTodo t is).value (.lock l) = 0 := by
    show update m.value (.lock l) (i32 (m.value (.lock l) - 1)) (.lock l) = 0
    rw [update_self, hone]
    rfl
  refine h.move .passed hlt rfl ?_ (fun u _ => hout u) (by intro hc; cases hc) ?_ ?_ ?_ ?_
  · apply lockPhase_update
    · simp [LockPhase.next]
    · intro u hut
      simp [LockPhase.next, Ne.symm hut]
  · intro u hut
    exact update_of_ne hut _ _
  · simpa [Synch.setTodo] using his
  · omega
  · rw [hvalue, hone, hout]
    simp

/-- `Acquire` completes. -/
theorem LockInv.acquired (h : LockInv l m) (hlt : t < m.created)
    (hpassed : lockPhase m.log t l = .passed) (his : Covered l .held is) :
    LockInv l (({ m with holdingThread := update m.holdingThread l (some (m.address t))
      }.record [.acquired t l]).setTodo t is) := by
  have hne : lockPhase m.log t l ≠ .out := by
    rw [hpassed]
    simp
  refine h.move .held hlt rfl ?_ (fun u => h.only hne) ?_ ?_ ?_ h.nonneg ?_
  · apply lockPhase_update
    · simp [LockPhase.next]
    · intro u hut
      simp [LockPhase.next, Ne.symm hut]
  · intro _
    exact update_self _ _ _
  · intro u hut
    exact update_of_ne hut _ _
  · simpa [Synch.setTodo] using his
  · rw [hpassed]
    rfl

/-- The code after a test of a semaphore, for a thread that passes it. -/
theorem covered_cont {i : Instr ι} {rest cont : List (Instr ι)} {s : SemId}
    {ph : LockPhase} (hi : i.tests = some (s, cont)) (h : Covered l ph (i :: rest)) :
    Covered l (if s = .lock l then .passed else ph) (cont ++ rest) := by
  rcases Instr.tests_cases hi with ⟨n, rfl, rfl, rfl⟩ | ⟨l', rfl, rfl, rfl⟩ | ⟨rfl, rfl⟩
  · exact Own.covered h _
  · by_cases hl : l' = l
    · subst hl
      simpa [Covered] using h
    · simpa [Covered, hl] using h
  · exact h

theorem log_release (m : Synch ι σ) (t : ThreadPtr) (l : Nat) (rest : List (Instr ι)) :
    ((m.release t l).setTodo t rest).log = m.log ++ [.release t l, .v (.lock l)] := by
  simp [Synch.setTodo, Synch.release, Synch.v, Synch.record]

theorem log_wait (m : Synch ι σ) (t : ThreadPtr) (c l : Nat) (rest : List (Instr ι)) :
    (((m.record [.waitRelease t c]).release t l).setTodo t rest).log =
      m.log ++ [.waitRelease t c, .release t l, .v (.lock l)] := by
  simp [Synch.setTodo, Synch.release, Synch.v, Synch.record]

theorem lockPhase_pass_of_ne {s : SemId} (hs : s ≠ .lock l) (m : Synch ι σ) (t u : ThreadPtr)
    (is : List (Instr ι)) :
    lockPhase ((m.pass t s).setTodo t is).log u l = lockPhase m.log u l :=
  (lockPhase_append _ _ _ _).trans (foldl_next_eq (next_pDone_of_ne hs t u) _)

theorem lockPhase_wake (m : Synch ι σ) (t u : ThreadPtr) (c n l : Nat) (is : List (Instr ι)) :
    lockPhase ((m.wake c n).setTodo t is).log u l = lockPhase m.log u l :=
  (lockPhase_append _ _ _ _).trans (foldl_next_eq (next_wake _ _ l u) _)

/-- `Release` changes the phase of its thread. -/
theorem lockPhase_release (m : Synch ι σ) (t u : ThreadPtr) (l' l : Nat) (is : List (Instr ι)) :
    lockPhase ((m.release t l').setTodo t is).log u l =
      if t = u ∧ l' = l then .out else lockPhase m.log u l := by
  rw [log_release, lockPhase_append]
  rfl

theorem lockPhase_wait (m : Synch ι σ) (t u : ThreadPtr) (c l' l : Nat)
    (is : List (Instr ι)) :
    lockPhase (((m.record [.waitRelease t c]).release t l').setTodo t is).log u l =
      if t = u ∧ l' = l then .out else lockPhase m.log u l := by
  rw [log_wait, lockPhase_append]
  rfl

/-- After the release by the thread that holds the lock nobody is inside. -/
theorem LockInv.out_of_release (h : LockInv l m) (ht : Holds m.log t l) (u : ThreadPtr) :
    (if t = u ∧ l = l then .out else lockPhase m.log u l) = LockPhase.out := by
  by_cases hu : t = u
  · rw [if_pos ⟨hu, rfl⟩]
  · rw [if_neg fun hc => hu hc.1]
    refine h.only ?_ (Ne.symm hu)
    rw [ht]
    simp

/-- `Signal` and `Broadcast` are called outside the routines. -/
theorem own_of_wakes {i : Instr ι} {rest : List (Instr ι)} {r : Nat × Nat × Nat}
    {ph : LockPhase} (hi : m.wakes i = some r) (h : Covered l ph (i :: rest)) :
    Own rest := by
  rcases wakes_cases hi with rfl | rfl
  · exact h
  · exact h

/-- Every step by a disciplined thread keeps the invariant of every lock. -/
theorem LockInv.step {prog : Program ι σ η} (h : LockInv l m) (hd : m.Dispatched t o)
    (hdisc : Disciplined l m t o) (hstep : Step prog t o m m') : LockInv l m' := by
  have hnil : m.log = m.log ++ [] := (List.append_nil _).symm
  have hcov := h.covered t
  cases hstep with
  | quiet => exact h
  | newThread => exact h.frame (Nat.le_succ _) rfl rfl rfl (fun _ => rfl) h.covered
  | @fork _ u func rest htodo hut hfresh =>
    rw [htodo] at hcov
    have hcaller : LockInv l (m.setTodo t rest) :=
      h.keep rfl rfl rfl rfl hnil (by simp) rfl (Own.covered hcov _)
    refine hcaller.keep rfl rfl rfl rfl hnil (by simp) rfl (Own.covered ?_ _)
    simp [Own]
  | finish htodo hrest => exact h.keep rfl rfl rfl rfl hnil (by simp) rfl trivial
  | client sch htodo hs hexec =>
    rw [htodo] at hcov
    exact h.keep rfl rfl rfl rfl hnil (by simp) rfl (Own.covered ((own_map_call _).append hcov) _)
  | block htodo hi hv =>
    rw [htodo] at hcov
    exact h.keep rfl rfl rfl rfl hnil (by simp) rfl (covered_cont hi hcov)
  | @pass _ i rest s cont htodo hi hv =>
    rw [htodo] at hcov
    have hcont := covered_cont hi hcov
    by_cases hs : s = .lock l
    · subst hs
      rw [if_pos rfl] at hcont
      exact h.pass hd.lt_created hv hcont
    · rw [if_neg hs] at hcont
      exact h.keep rfl rfl (update_of_ne (Ne.symm hs) _ _) rfl rfl (next_pDone_of_ne hs t) rfl hcont
  | v htodo =>
    rw [htodo] at hcov
    refine h.keep rfl rfl ?_ rfl rfl (by simp [LockPhase.next]) rfl hcov
    simp [Synch.setTodo, Synch.v, Synch.record]
  | @release _ l' rest htodo =>
    rw [htodo] at hcov
    by_cases hl : l' = l
    · subst hl
      exact h.release hd.lt_created (hdisc.1 rfl) (Own.covered hcov _)
    · refine h.keep (e := [.release t l', .v (.lock l')]) rfl rfl ?_ ?_ ?_ ?_ rfl
        (Own.covered hcov _)
      · exact update_of_ne (by simpa using Ne.symm hl) _ _
      · exact update_of_ne (Ne.symm hl) _ _
      · exact log_release m t l' rest
      · simp [LockPhase.next, hl]
  | @wait _ c l' rest htodo =>
    rw [htodo] at hcov
    have hheld : ∀ ph, Covered l ph
        (.waitAppend c :: .call (.acquire l') :: .waitReturn c l' :: rest) := by
      intro ph
      refine ⟨?_, hcov⟩
      intro hl
      rw [if_pos hl]
    by_cases hl : l' = l
    · subst hl
      have hrec : LockInv l' (m.record [.waitRelease t c]) :=
        h.frame le_rfl rfl rfl rfl
          (fun u => (lockPhase_append _ _ _ _).trans (foldl_next_eq (by simp [LockPhase.next]) _))
          h.covered
      refine hrec.release hd.lt_created ?_ (hheld _)
      have hcur := hdisc.2 c rfl
      rw [Holds, Synch.record, lockPhase_append]
      exact hcur
    · refine h.keep (e := [.waitRelease t c, .release t l', .v (.lock l')]) rfl rfl ?_ ?_ ?_ ?_ rfl
        (hheld _)
      · exact update_of_ne (by simpa using Ne.symm hl) _ _
      · exact update_of_ne (Ne.symm hl) _ _
      · exact log_wait m t c l' _
      · simp [LockPhase.next, hl]
  | wake htodo hi hh =>
    rw [htodo] at hcov
    exact h.keep rfl rfl rfl rfl rfl (next_wake _ _ l) rfl (Own.covered (own_of_wakes hi hcov) _)
  | noWake htodo hi hh =>
    rw [htodo] at hcov
    exact h.keep rfl rfl rfl rfl hnil (by simp) rfl (Own.covered (own_of_wakes hi hcov) _)
  | @acquired _ l' rest htodo =>
    rw [htodo] at hcov
    by_cases hl : l' = l
    · subst hl
      have hrest := hcov.2
      rw [if_pos rfl] at hrest
      exact h.acquired hd.lt_created (hcov.1 rfl) hrest
    · have hrest := hcov.2
      rw [if_neg hl] at hrest
      exact h.keep rfl rfl rfl (update_of_ne (Ne.symm hl) _ _) rfl
        (by simp [LockPhase.next, hl]) rfl hrest
  | waitAppend htodo =>
    rw [htodo] at hcov
    exact h.keep rfl rfl rfl rfl rfl (by simp [LockPhase.next]) rfl hcov
  | waitReturn htodo =>
    rw [htodo] at hcov
    exact h.keep rfl rfl rfl rfl hnil (by simp) rfl (Own.covered hcov.2 _)
  | start cs htodo =>
    exact h.keep rfl rfl rfl rfl hnil (by simp) rfl (Own.covered (own_map_call cs) _)
  | interrupt hhandler => exact h.keep rfl rfl rfl rfl hnil (by simp) rfl (covered_map_v _ hcov)

/-- At most one thread holds a lock. -/
theorem LockInv.unique (h : LockInv l m) {u : ThreadPtr} (ht : Holds m.log t l)
    (hu : Holds m.log u l) : t = u := by
  by_contra hne
  have hout : lockPhase m.log t l = .out := by
    refine h.only ?_ hne
    rw [hu]
    simp
  rw [Holds, hout] at ht
  cases ht

end Steps

end Synch

namespace Kernel

/-- Each thread calls `Release`, directly or inside `Wait`, only on a lock
whose `Acquire` it has completed and that it has not released since. -/
def LockDiscipline (k : Kernel ι σ) (a : Action ι η) : Prop :=
  match a, k.code k.cur with
  | .exec, .call (.release l) :: _ => Holds k.log k.cur l
  | .exec, .call (.wait _ l) :: _ => Holds k.log k.cur l
  | _, _ => True

instance (k : Kernel ι σ) (a : Action ι η) : Decidable (k.LockDiscipline a) :=
  decidable_of_iff
    ((match a, k.code k.cur with
      | .exec, .call (.release l) :: _ => decide (Holds k.log k.cur l)
      | .exec, .call (.wait _ l) :: _ => decide (Holds k.log k.cur l)
      | _, _ => true) = true)
    (by unfold LockDiscipline; split <;> simp)

/-- The threads that have passed the `P` of a lock without having called
`V`. -/
def inside (k : Kernel ι σ) (l : Nat) : Finset ThreadPtr :=
  (Finset.range k.sched.created).filter fun t => lockPhase k.log t l ≠ .out

/-- At most one thread is between the completion of `Acquire` and the start of
`Release`, and the value of the semaphore is what the threads inside leave. -/
def MutualExclusion (k : Kernel ι σ) (l : Nat) : Prop :=
  (∀ t u, Holds k.log t l → Holds k.log u l → t = u) ∧
    k.value (.lock l) + (k.inside l).card = 1

theorem disciplined_of_lockDiscipline {k : Kernel ι σ} {a : Action ι η}
    (h : k.LockDiscipline a) (l : Nat) :
    Synch.Disciplined l k.synch k.cur (k.label a) := by
  constructor
  · intro hl
    obtain ⟨rfl, rest, hcode⟩ := label_eq_exec hl
    simpa [LockDiscipline, hcode, synch] using h
  · intro c hl
    obtain ⟨rfl, rest, hcode⟩ := label_eq_exec hl
    simpa [LockDiscipline, hcode, synch] using h

/-- A new lock is free. -/
theorem lockInv_initAt (address : ThreadPtr → Nat) (initialValue : Nat → Int)
    (holding : Nat → Option Nat) (shared : σ) (l : Nat) :
    Synch.LockInv l (initAt address initialValue holding shared : Kernel ι σ).synch where
  nonneg := by simp [initAt, init, synch]
  balance := by simp [initAt, init, synch, Synch.inside, lockPhase]
  covered t := trivial
  fresh t _ := rfl
  holder t ht := by cases ht

theorem lockInv_init (initialValue : Nat → Int) (holding : Nat → Option ThreadPtr)
    (shared : σ) (l : Nat) :
    Synch.LockInv l (init initialValue holding shared : Kernel ι σ).synch :=
  lockInv_initAt (fun t => t) initialValue holding shared l

/-- In every run in which the threads are disciplined, every lock excludes. -/
theorem lock_mutual_exclusion (prog : Program ι σ η) (initialValue : Nat → Int)
    (holding : Nat → Option ThreadPtr) (shared : σ) (as : List (Action ι η))
    (k : Kernel ι σ)
    (hok : Along (step prog) (fun k a => k.ForkOnce a ∧ k.LockDiscipline a)
      (init initialValue holding shared) as)
    (hrun : run (step prog) (init initialValue holding shared) as = some k) (l : Nat) :
    k.MutualExclusion l := by
  have hinit := lockInv_init (ι := ι) initialValue holding shared l
  have hinv := synch_invariant (fun _ _ h => h.1)
    (fun k a _ hk hok hI =>
      hI.step (dispatched_of_control hk a) (disciplined_of_lockDiscipline hok.2 l))
    (control_init _ _ _) hinit hok hrun
  exact ⟨fun t u => hinv.2.unique, hinv.2.balance⟩

/-- A program whose thread function takes lock `0` and keeps it. -/
def keeper : Program Unit Unit Nat where
  exec _ _ _ := some ((), [.acquire 0])
  handler _ _ := none

/-- The main thread takes the lock, forks a thread that wants it too, and yields to
it. -/
def contend : List (Action Unit Nat) :=
  .start [.acquire 0, .newThread 255, .fork 1 (), .yield] :: List.replicate 17 .exec

/-- The main thread holds the lock while the other one waits in `Acquire`. -/
theorem lock_mutual_exclusion_contended : ∃ k : Kernel Unit Unit,
    run (step keeper) (init (fun _ => 0) (fun _ => none) ()) contend = some k ∧
      (k.sched.queue (.sem (.lock 0))).items = [1] ∧ Holds k.log 0 0 ∧ k.MutualExclusion 0 :=
  ⟨_, rfl, rfl, rfl, lock_mutual_exclusion keeper (fun _ => 0) (fun _ => none) () contend _
    (by decide) rfl 0⟩

end Kernel

end Nachos.Threads

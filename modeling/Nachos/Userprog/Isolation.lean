import Nachos.Threads.Synch
import Nachos.Userprog.Process

/-!
# Address spaces across thread exit

An entry of `rt_page_table` names its thread by id.  `~Thread` frees the id
and leaves the table as it is, so an entry can outlive its thread, and the next
thread with the id hits it.

`Isolated` says that every valid entry belongs to the thread that has installed
it, and that this thread exists.

* `stale_frame_after_exit` is a run in which a forked thread exits, and the
  next forked thread hits the frame that it has left behind.
* `isolated_across_exit`: as long as a thread is deleted only when no valid
  entry has its id, every state of every run is isolated.
-/

namespace Nachos.Userprog

open Function Lib Threads Machine

/-! ## What an access does to the table -/

section Table

variable {m m' : Memory} {ids : ThreadIds} {tid : Nat} {addr : BitVec 32} {random : Nat}

/-- The table after an access: it faults and installs an entry, or it hits an
entry and sets its bits. -/
inductive TableStep (m : Memory) (tid vpn : Nat) (writing : Bool) (random : Nat) :
    (Fin NumPhysPages → ReverseTranslationEntry) → Prop where
  | fault (h : m.lookup tid vpn = none) :
      TableStep m tid vpn writing random
        (update m.rtPageTable (m.position random)
          { m.rtPageTable (m.position random) with
            virtualPage := vpn
            valid := true
            dirty := false
            tid := tid })
  | hit {i} (h : m.lookup tid vpn = some i) :
      TableStep m tid vpn writing random (m.touch i writing).rtPageTable

theorem serve_table {t : ThreadPtr} {a : Access} {reply : Reply}
    (h : m.serve ids ⟨t, a, random⟩ = some (m', reply)) :
    TableStep m (ids.tid t) (a.addr.toNat / PageSize) a.writing random m'.rtPageTable := by
  cases Memory.serve_cases h with
  | fault hl hm =>
    obtain ⟨bytes, disk, rfl⟩ := Memory.reverseTableReplace_eq_some hm
    exact .fault hl
  | read halign hl hv => exact .hit hl
  | write halign hl hf => exact .hit hl

/-- An access does not change the address spaces. -/
theorem access_spaces {s : Sched} {x x' : UserState} {a : Access}
    (hx : x.access s a random = some x') :
    x'.arrays = x.arrays ∧ x'.memory.space = x.memory.space := by
  obtain ⟨⟨m, reply⟩, hserve, rfl⟩ := Option.map_eq_some_iff.mp hx
  have hspace : m.space = x.memory.space := by
    cases Memory.serve_cases hserve with
    | fault hl hm =>
      obtain ⟨bytes, disk, rfl⟩ := Memory.reverseTableReplace_eq_some hm
      rfl
    | read halign hl hv => rfl
    | write halign hl hf => rfl
  split <;> exact ⟨rfl, hspace⟩

end Table

/-! ## The invariant -/

/-- Every valid entry belongs to the thread that has installed it, and only
that thread has written to its frame. -/
structure Owned (s : Sched) (x : UserState) : Prop where
  owner : ∀ i, (x.memory.rtPageTable i).valid = true →
    s.Live (x.installer i) ∧ (x.memory.rtPageTable i).tid = s.ids.tid (x.installer i)
  dirtier : ∀ i, (x.memory.rtPageTable i).valid = true →
    (x.memory.rtPageTable i).dirty = true → x.dirtier i = x.installer i

section Owned

variable {s s' : Sched} {x x' : UserState}

/-- A thread hits only the entries that it has installed. -/
theorem Owned.hit (h : Owned s x) (hids : s.ids.Valid s.Live) {t : ThreadPtr} {vpn : Nat}
    {i : Fin NumPhysPages} (ht : s.Live t)
    (hl : x.memory.lookup (s.ids.tid t) vpn = some i) : x.installer i = t := by
  obtain ⟨hvalid, _, htid⟩ := Memory.lookup_spec hl
  obtain ⟨hlive, howner⟩ := h.owner i hvalid
  rw [htid] at howner
  exact hids.tid_inj hlive ht (Int.ofNat_inj.mp howner.symm)

theorem Owned.congr (h : Owned s x) (hs : s'.lifecycle = s.lifecycle) : Owned s' x := by
  simp only [Sched.lifecycle, Prod.mk.injEq] at hs
  obtain ⟨hcreated, hids, _, hdestroyed, _⟩ := hs
  refine ⟨fun i hi => ?_, h.dirtier⟩
  obtain ⟨hlive, htid⟩ := h.owner i hi
  rw [hids]
  exact ⟨⟨hcreated ▸ hlive.1, hdestroyed ▸ hlive.2⟩, htid⟩

/-- A new thread has no entries. -/
theorem Owned.newThread {p : Int} (h : Owned s x) (hs : s.newThread p = some s') :
    Owned s' x := by
  obtain ⟨ids, hids, rfl⟩ := Sched.newThread_spec hs
  obtain ⟨j, _, _, rfl⟩ := ThreadIds.construct_spec hids
  refine ⟨fun i hi => ?_, h.dirtier⟩
  obtain ⟨hlive, htid⟩ := h.owner i hi
  have hne : x.installer i ≠ s.created := Nat.ne_of_lt hlive.1
  exact ⟨⟨Nat.lt_succ_of_lt hlive.1, hlive.2⟩, by simpa [update_of_ne hne] using htid⟩

/-- The deletion of a thread without entries. -/
theorem Owned.reap (h : Owned s x) (hs : s.reap = some s')
    (hfree : ∀ t, s.threadToBeDestroyed = some t →
      ∀ i, (x.memory.rtPageTable i).valid = true →
        (x.memory.rtPageTable i).tid ≠ s.ids.tid t) : Owned s' x := by
  rcases Sched.reap_spec hs with ⟨rfl, _⟩ | ⟨t, ht, _, rfl⟩
  · exact h
  · refine ⟨fun i hi => ?_, h.dirtier⟩
    obtain ⟨hlive, htid⟩ := h.owner i hi
    have hne : x.installer i ≠ t := by
      intro he
      rw [he] at htid
      exact hfree t ht i hi htid
    exact ⟨⟨hlive.1, by simpa [update_of_ne hne] using hlive.2⟩, htid⟩

/-- An access of a thread that exists. -/
theorem Owned.access {a : Access} {random : Nat} (h : Owned s x) (hids : s.ids.Valid s.Live)
    (hcur : s.Live s.currentThread) (ha : x.access s a random = some x') : Owned s x' := by
  obtain ⟨⟨m, reply⟩, hserve, rfl⟩ := Option.map_eq_some_iff.mp ha
  have htable := serve_table hserve
  generalize htid : s.ids.tid s.currentThread = tid at htable ⊢
  generalize hvpn : a.addr.toNat / PageSize = vpn at htable ⊢
  generalize htbl : m.rtPageTable = table at htable
  cases htable with
  | fault hl =>
    simp only [hl]
    constructor
    · intro i hi
      simp only [htbl] at hi ⊢
      by_cases hpos : i = x.memory.position random
      · subst hpos
        rw [update_self, update_self]
        exact ⟨hcur, by rw [htid]⟩
      · rw [update_of_ne hpos] at hi ⊢
        rw [update_of_ne hpos]
        exact h.owner i hi
    · intro i hi hdirty
      simp only [htbl] at hi hdirty ⊢
      by_cases hpos : i = x.memory.position random
      · subst hpos
        simp at hdirty
      · rw [update_of_ne hpos] at hi hdirty ⊢
        exact h.dirtier i hi hdirty
  | @hit j hl =>
    have howner : x.installer j = s.currentThread := h.hit hids hcur (htid ▸ hl)
    simp only [hl]
    constructor
    · intro i hi
      simp only [htbl, Memory.touch] at hi ⊢
      by_cases hij : i = j
      · subst hij
        simp only [update_self] at hi ⊢
        exact h.owner i hi
      · rw [update_of_ne hij] at hi ⊢
        exact h.owner i hi
    · intro i hi hdirty
      simp only [htbl, Memory.touch] at hi hdirty ⊢
      by_cases hij : i = j
      · subst hij
        simp only [update_self] at hi hdirty
        cases hw : a.writing with
        | true => simp [howner]
        | false => simpa using h.dirtier i hi (by simpa [hw] using hdirty)
      · rw [update_of_ne hij] at hi hdirty
        cases hw : a.writing with
        | true => simpa [update_of_ne hij] using h.dirtier i hi hdirty
        | false => simpa using h.dirtier i hi hdirty

/-- The code of a user process. -/
theorem Owned.exec {i : UserCode} {r : UserState × List (Call UserCode)} (h : Owned s x)
    (hids : s.ids.Valid s.Live) (hcur : s.Live s.currentThread)
    (hexec : userProgram.exec s i x = some r) : Owned s r.1 := by
  obtain ⟨x', calls⟩ := r
  cases exec_effect hexec with
  | access hx => exact h.access hids hcur hx
  | load | setSpace => exact ⟨h.owner, h.dirtier⟩
  | same haccess hload => exact h

end Owned

end Nachos.Userprog

namespace Nachos.Threads.Kernel

open Function Lib Machine Userprog

/-! ## Runs -/

/-- A thread is deleted only when no valid entry has its id. -/
def DeletedUnmapped (k : Kernel UserCode UserState) (a : Action UserCode Empty) : Prop :=
  match a, k.code k.cur, k.sched.threadToBeDestroyed with
  | .exec, .afterSwitch :: _, some t =>
      ∀ i, (k.shared.memory.rtPageTable i).valid = true →
        (k.shared.memory.rtPageTable i).tid ≠ k.sched.ids.tid t
  | _, _, _ => True

instance (k : Kernel UserCode UserState) (a : Action UserCode Empty) :
    Decidable (k.DeletedUnmapped a) := by
  unfold DeletedUnmapped
  split <;> infer_instance

/-- The address spaces of the threads are isolated. -/
structure Isolated (k : Kernel UserCode UserState) : Prop where
  /-- A valid entry belongs to a thread that exists and has installed it. -/
  owner : ∀ i, (k.shared.memory.rtPageTable i).valid = true →
    k.sched.Live (k.shared.installer i) ∧
      (k.shared.memory.rtPageTable i).tid = k.sched.ids.tid (k.shared.installer i)
  /-- A thread hits only the frames that it has filled. -/
  hit : ∀ t vpn i, k.sched.Live t →
    k.shared.memory.lookup (k.sched.ids.tid t) vpn = some i → k.shared.installer i = t
  /-- A write-back goes to the thread that has made the page dirty. -/
  writeBack : ∀ i, (k.shared.memory.rtPageTable i).valid = true →
    (k.shared.memory.rtPageTable i).dirty = true →
    k.sched.ids.threadPoiners (k.shared.memory.rtPageTable i).tid.toNat =
      some (k.shared.dirtier i)

section Isolated

variable {k k' : Kernel UserCode UserState} {a : Action UserCode Empty}

theorem isolated_of_owned (hids : k.sched.ids.Valid k.sched.Live)
    (h : Owned k.sched k.shared) : k.Isolated where
  owner := h.owner
  hit t vpn i ht hl := h.hit hids ht hl
  writeBack i hvalid hdirty := by
    obtain ⟨hlive, htid⟩ := h.owner i hvalid
    rw [h.dirtier i hvalid hdirty, htid]
    exact hids.poiner_eq _ hlive

/-- A step changes user memory only in the code of a process. -/
theorem step_userProgram (hstep : k.step userProgram a = some k') :
    k'.shared = k.shared ∨ k'.sched = k.sched ∧ ∃ i rest r,
      k.code k.cur = .call (.client i) :: rest ∧
        userProgram.exec k.sched i k.shared = some r ∧ k'.shared = r.1 := by
  rcases step_shared hstep with heq | hexec | ⟨d, _⟩
  · exact Or.inl heq
  · exact Or.inr hexec.2
  · exact d.elim

/-- A thread that runs the code of a process exists. -/
theorem live_of_client {i : UserCode} {rest : List (Instr UserCode)} (hc : k.Control)
    (hcode : k.code k.cur = .call (.client i) :: rest) : k.sched.Live k.cur := by
  have hwf := hc.current
  rw [hcode] at hwf
  have hm : k.mode ≠ .asleep := by
    intro hm
    rw [hm] at hwf
    exact hwf.1
  refine ⟨hc.sched.current_lt, ?_⟩
  cases hd : k.sched.destroyed k.cur with
  | false => rfl
  | true =>
    have hblocked := (hc.sched.finished_blocked _ (hc.sched.destroyed_finished _ hd)).2
    rw [(running_of_mode hm).1] at hblocked
    cases hblocked

theorem owned_step (hc : k.Control) (hfork : k.ForkOnce a) (h : Owned k.sched k.shared)
    (hdel : k.DeletedUnmapped a)
    (hstep : k.step userProgram a = some k') : Owned k'.sched k'.shared := by
  rcases step_userProgram hstep with hshared | ⟨hsched, i, rest, r, hcode, hexec, hshared⟩
  · rw [hshared]
    rcases step_sched hstep with ⟨rest, _, _, hs⟩ | ⟨rest, rfl, hcode, hr⟩ | hs
    · rw [hs]
      exact ⟨h.owner, h.dirtier⟩
    · refine h.reap hr fun t ht => ?_
      simpa [DeletedUnmapped, hcode, ht] using hdel
    · rcases Sched.lifecycle_of_schedStep hs with heq | ⟨p, hn⟩
      · exact h.congr heq
      · exact h.newThread hn
  · rw [hsched, hshared]
    exact h.exec hc.sched.ids_valid (live_of_client hc hcode) hexec

/-- In every run in which each thread is forked once and is deleted only when
no valid entry has its id, the address spaces are isolated in every state. -/
theorem isolated_across_exit (initialValue : Nat → Int) (holding : Nat → Option ThreadPtr)
    (dirty : Fin NumPhysPages → Bool) (as : List (Action UserCode Empty))
    (k : Kernel UserCode UserState)
    (hok : Along (step userProgram) (fun k a => k.ForkOnce a ∧ k.DeletedUnmapped a)
      (init initialValue holding (.boot dirty)) as)
    (hrun : run (step userProgram) (init initialValue holding (.boot dirty)) as = some k) :
    k.Isolated := by
  have hinv : k.Control ∧ Owned k.sched k.shared := by
    refine run_invariant (I := fun k => k.Control ∧ Owned k.sched k.shared) ?_ ?_ hok hrun
    · intro k1 a k2 h hok hstep
      exact ⟨control_step h.1 hok.1 hstep, owned_step h.1 hok.1 h.2 hok.2 hstep⟩
    · refine ⟨control_init _ _ _, fun i hi => ?_, fun i hi => ?_⟩
      · cases hi
      · cases hi
  exact isolated_of_owned hinv.1.sched.ids_valid hinv.2

end Isolated

/-- A program of one page. -/
def onePageImage : Image := ⟨1, fun _ => 0⟩

/-- The main thread starts a program that runs `script`. -/
def startProcess (script : List UserOp) (n : Nat) : List (Action UserCode Empty) :=
  .start [.client (.execFunc (some onePageImage) script)] :: List.replicate n .exec

/-- The program executes two instructions and a third one that calls `Exec`
for a file that does not exist. -/
def execMissing : List UserOp :=
  [.access (.read 0 4) 0, .access (.read 0 4) 0, .exec none [], .yield]

/-- The child finishes and is deleted, and the entry of the parent stays. -/
theorem isolated_across_exit_missing : ∃ k : Kernel UserCode UserState,
    run (step userProgram) (init (fun _ => 0) (fun _ => none) (.boot fun _ => true))
        (startProcess execMissing 18) = some k ∧
      k.sched.destroyed 1 = true ∧ (k.shared.memory.rtPageTable 0).valid = true ∧
      k.Isolated :=
  ⟨_, rfl, rfl, rfl, isolated_across_exit (fun _ => 0) (fun _ => none) (fun _ => true)
    (startProcess execMissing 18) _ (by decide) rfl⟩

/-- A forked thread that executes one instruction at address `64`, its
`Exit`. -/
def exitAt64 : List UserOp := [.access (.read 64 4) 0, .access (.read 64 4) 0, .exit]

/-- The program forks such a thread, yields, and forks another one. -/
def forkTwice : List UserOp :=
  [.access (.read 0 4) 0, .access (.read 0 4) 0, .fork exitAt64, .access (.read 4 4) 0, .yield,
    .access (.read 8 4) 0, .fork exitAt64, .access (.read 12 4) 0, .yield]

/-- The first forked thread fills frame `1` and is deleted.  The second one
gets its id, and its first access hits that frame. -/
theorem stale_frame_after_exit : ¬ ∀ (as : List (Action UserCode Empty))
    (k : Kernel UserCode UserState),
    Along (step userProgram) ForkOnce
      (init (fun _ => 0) (fun _ => none) (.boot fun _ => true)) as →
    run (step userProgram) (init (fun _ => 0) (fun _ => none) (.boot fun _ => true)) as =
      some k → k.Isolated := by
  intro hclaim
  obtain ⟨k, hrun, hlive, hlookup, hinstaller, hdead⟩ : ∃ k : Kernel UserCode UserState,
      run (step userProgram) (init (fun _ => 0) (fun _ => none) (.boot fun _ => true))
          (startProcess forkTwice 34) = some k ∧
        k.sched.Live 2 ∧ k.shared.memory.lookup (k.sched.ids.tid 2) 0 = some 1 ∧
        k.shared.installer 1 = 1 ∧ k.sched.destroyed 1 = true :=
    ⟨_, rfl, ⟨by decide, rfl⟩, rfl, rfl, rfl⟩
  have hhit := (hclaim (startProcess forkTwice 34) k (by decide) hrun).hit 2 0 1 hlive hlookup
  rw [hinstaller] at hhit
  cases hhit

end Nachos.Threads.Kernel

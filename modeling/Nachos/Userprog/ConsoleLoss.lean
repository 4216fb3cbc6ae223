import Nachos.Userprog.ConsoleTest

/-!
# Keys that the console loses

`inputKept_of_kept` says that the input is right if the keys are `Kept`.  This module
has the converse: for all other keys there is a run in which a character is
overwritten.

In these runs the main thread is alone.  Between two rounds it sleeps in the `P` on
`readAvail`, and in a round in the `P` on `writeDone`.  `Drives` is a part of such a
run, and the lemmas take the main thread from one place to the next.  The state comes
back to what it was but for the console and the log, and so the rounds can be put
together.
-/

namespace Nachos.Userprog

open Function Lib Machine Threads

/-- The conditions of a run. -/
def Admissible (k : Kernel ConsoleCode ConsoleData) (a : Action ConsoleCode ConsoleInterrupt) :
    Prop :=
  k.ForkOnce a ∧ Kernel.OutsideStart consoleReserved a

instance (k : Kernel ConsoleCode ConsoleData) (a : Action ConsoleCode ConsoleInterrupt) :
    Decidable (Admissible k a) :=
  inferInstanceAs (Decidable (_ ∧ _))

/-- An admissible run. -/
structure Drives (k : Kernel ConsoleCode ConsoleData)
    (as : List (Action ConsoleCode ConsoleInterrupt)) (k' : Kernel ConsoleCode ConsoleData) :
    Prop where
  admissible : Along (Kernel.step consoleTest) Admissible k as
  run : run (Kernel.step consoleTest) k as = some k'

theorem Drives.trans {k k' k'' : Kernel ConsoleCode ConsoleData}
    {as bs : List (Action ConsoleCode ConsoleInterrupt)} (h : Drives k as k')
    (h' : Drives k' bs k'') : Drives k (as ++ bs) k'' := by
  constructor
  · exact along_append h.admissible h.run h'.admissible
  · rw [run_append, h.run]
    exact h'.run

/-- The semaphores are zero and the locks are free. -/
def freshValue : SemId → Int
  | .sem _ => 0
  | .lock _ => 1

section Alone

variable (holding : Nat → Option ThreadPtr) (x : ConsoleData) (log : List Event)

/-- The main thread executes `is`. -/
def busyKernel (is : List (Instr ConsoleCode)) : Kernel ConsoleCode ConsoleData where
  sched := .init
  code := update (fun _ => []) 0 is
  level := .intOn
  yieldOnReturn := false
  value := freshValue
  holdingThread := holding
  shared := x
  log := log

/-- The main thread sleeps in a `P`, and `i` follows. -/
def idleKernel (n : Nat) (i : ConsoleCode) : Kernel ConsoleCode ConsoleData where
  sched := Sched.init.block (.sem (.sem n))
  code := update (fun _ => []) 0
    [.idle, .sleep, .pLoop (.sem n), .setLevel .intOn, .call (.client i)]
  level := .intOff
  yieldOnReturn := false
  value := freshValue
  holdingThread := holding
  shared := x
  log := log

variable {holding x log}

/-- The main thread executes code of the program. -/
theorem drives_client {i : ConsoleCode} {x' : ConsoleData} {cs : List (Call ConsoleCode)}
    (h : consoleTest.exec .init i x = some (x', cs)) :
    Drives (busyKernel holding x log [.call (.client i)]) [.exec]
      (busyKernel holding x' log (cs.map Instr.call)) := by
  have hstep : Kernel.step consoleTest (busyKernel holding x log [.call (.client i)]) .exec =
      some (busyKernel holding x' log (cs.map Instr.call)) := by
    show (consoleTest.exec .init i x).map _ = _
    rw [h]
    show some { busyKernel holding x' log [] with
      code := update (update (fun _ => []) 0 [.call (.client i)]) 0
        (cs.map Instr.call ++ []) } = _
    rw [update_idem, List.append_nil]
    rfl
  refine ⟨⟨⟨trivial, trivial⟩, ?_⟩, ?_⟩
  · rw [hstep]
    trivial
  · rw [run, hstep]
    rfl

/-- The main thread goes to sleep. -/
theorem drives_block (n : Nat) (i : ConsoleCode) :
    Drives (busyKernel holding x log [.call (.p n), .call (.client i)]) [.exec, .exec]
      (idleKernel holding x log n i) := by
  have hrun : run (Kernel.step consoleTest)
      (busyKernel holding x log [.call (.p n), .call (.client i)]) [.exec, .exec] =
      some { idleKernel holding x log n i with
        code := update (update (update (fun _ => []) 0 [.call (.p n), .call (.client i)]) 0
          [.sleep, .pLoop (.sem n), .setLevel .intOn, .call (.client i)]) 0
          [.idle, .sleep, .pLoop (.sem n), .setLevel .intOn, .call (.client i)] } := rfl
  refine ⟨of_decide_eq_true rfl, ?_⟩
  rw [hrun, update_idem, update_idem]
  rfl

end Alone

/-- The main thread has slept and executes again. -/
theorem sched_round (s : SemId) :
    (((Sched.init.block (.sem s)).wake (.sem s)).findNextToRun).2.run 0 = Sched.init := by
  have hqueue : (Sched.init.block (.sem s)).queue (.sem s) = NachosList.append [] 0 :=
    update_self _ _ _
  have hstatus : update (update (update Sched.init.status 0 .blocked) 0 .ready) 0 .running =
      Sched.init.status := by
    rw [update_idem, update_idem]
    exact update_eq_self_iff.mpr rfl
  have hempty : update (update Sched.init.queue (.sem s) (NachosList.append [] 0)) (.sem s) [] =
      Sched.init.queue := by
    rw [update_idem]
    exact update_eq_self_iff.mpr rfl
  have hround : (((Sched.init.block (.sem s)).wake (.sem s)).findNextToRun).2.run 0 =
      { Sched.init with
        status := update (update (update Sched.init.status 0 .blocked) 0 .ready) 0 .running
        queue := update (update Sched.init.queue (.sem s) (NachosList.append [] 0)) (.sem s)
          [] } := by
    rw [Sched.wake, hqueue]
    rfl
  rw [hround, hstatus, hempty]

/-- Only the last of several updates at one place counts. -/
theorem update_foldl {α β : Type} [DecidableEq α] (a : α) (vs : List β) (v : β) (f : α → β) :
    update (vs.foldl (fun f w => update f a w) f) a v = update f a v := by
  induction vs generalizing f with
  | nil => rfl
  | cons w vs ih =>
      rw [List.foldl_cons, ih, update_idem]

section Wake

variable (holding : Nat → Option ThreadPtr) {x x' : ConsoleData} (log : List Event)

/-- The code of the main thread from the `V` of the handler to the end of the `P`. -/
def wakeCodes (n : Nat) (i : ConsoleCode) : List (List (Instr ConsoleCode)) :=
  [[.call (.v n), .idle, .sleep, .pLoop (.sem n), .setLevel .intOn, .call (.client i)],
    [.setLevel .intOff, .idle, .sleep, .pLoop (.sem n), .setLevel .intOn, .call (.client i)],
    [.idle, .sleep, .pLoop (.sem n), .setLevel .intOn, .call (.client i)],
    [.sleep, .pLoop (.sem n), .setLevel .intOn, .call (.client i)],
    [.afterSwitch, .pLoop (.sem n), .setLevel .intOn, .call (.client i)],
    [.pLoop (.sem n), .setLevel .intOn, .call (.client i)],
    [.setLevel .intOn, .call (.client i)],
    [.dueLoop, .call (.client i)]]

/-- The main thread after an interrupt that has a `V` to do. -/
def handledKernel (x : ConsoleData) (n : Nat) (i : ConsoleCode) :
    Kernel ConsoleCode ConsoleData :=
  { idleKernel holding x log n i with
    code := update (fun _ => []) 0
      [.call (.v n), .idle, .sleep, .pLoop (.sem n), .setLevel .intOn, .call (.client i)] }

theorem step_interrupt {n : Nat} {d : ConsoleInterrupt}
    (hd : consoleTest.handler d x = some (x', [n])) (i : ConsoleCode) :
    Kernel.step consoleTest (idleKernel holding x log n i) (.interrupt d) =
      some (handledKernel holding log x' n i) := by
  show (consoleTest.handler d x).map _ = _
  rw [hd]
  show some { idleKernel holding x' log n i with
    code := update (update (fun _ => []) 0
      [.idle, .sleep, .pLoop (.sem n), .setLevel .intOn, .call (.client i)]) 0
      [.call (.v n), .idle, .sleep, .pLoop (.sem n), .setLevel .intOn, .call (.client i)] } = _
  rw [update_idem]
  rfl

/-- The `V` is done, the main thread finds itself in the ready list and passes its
`P`. -/
theorem drives_pass (x : ConsoleData) {n : Nat} (hn : n = readAvail ∨ n = writeDone)
    (i : ConsoleCode) : Drives (handledKernel holding log x n i) (List.replicate 8 .exec)
      (busyKernel holding x (log ++ [.v (.sem n)] ++ [.pDone 0 (.sem n)])
        [.call (.client i)]) := by
  have hvalue : update (update freshValue (.sem n) (i32 (freshValue (.sem n) + 1))) (.sem n) 0 =
      freshValue := by
    rw [update_idem]
    exact update_eq_self_iff.mpr rfl
  have hrun : run (Kernel.step consoleTest) (handledKernel holding log x n i)
      (List.replicate 8 .exec) =
      some { busyKernel holding x (log ++ [.v (.sem n)] ++ [.pDone 0 (.sem n)])
          [.call (.client i)] with
        sched := (((Sched.init.block (.sem (.sem n))).wake (.sem (.sem n))).findNextToRun).2.run 0
        value := update (update freshValue (.sem n) (i32 (freshValue (.sem n) + 1))) (.sem n) 0
        code := update ((wakeCodes n i).foldl (fun f is => update f 0 is) fun _ => []) 0
          [.call (.client i)] } := by
    rcases hn with rfl | rfl
    · rfl
    · rfl
  constructor
  · rcases hn with rfl | rfl
    · exact of_decide_eq_true rfl
    · exact of_decide_eq_true rfl
  · rw [hrun, sched_round, hvalue, update_foldl]
    rfl

/-- The handler of a device wakes the main thread. -/
theorem drives_wake {n : Nat} (hn : n = readAvail ∨ n = writeDone) {d : ConsoleInterrupt}
    (hd : consoleTest.handler d x = some (x', [n])) (i : ConsoleCode) :
    Drives (idleKernel holding x log n i) (.interrupt d :: List.replicate 8 .exec)
      (busyKernel holding x' (log ++ [.v (.sem n)] ++ [.pDone 0 (.sem n)])
        [.call (.client i)]) := by
  have hpass := drives_pass holding log x' hn i
  have hstep := step_interrupt holding log hd i
  exact ⟨(along_cons hstep).mpr ⟨⟨trivial, trivial⟩, hpass.admissible⟩,
    run_cons_eq_some.mpr ⟨_, hstep, hpass.run⟩⟩

end Wake

section Rounds

variable (holding : Nat → Option ThreadPtr)

/-- The console between two rounds. -/
def between (keyboard display returned : List Byte) : ConsoleData where
  console := ⟨EOF, false, keyboard, display, 0⟩
  started := true
  returned := returned
  buffered := false
  overwritten := false

/-- A round up to its end, with any key. -/
theorem drives_round (key : Byte) (keys display returned : List Byte) (log : List Event) :
    ∃ as log', Drives
      (idleKernel holding (between (key :: keys) display returned) log readAvail .echo) as
      (busyKernel holding (between keys (display ++ [key]) (returned ++ [key])) log'
        [.call (.client (.next key))]) := by
  have hwake := drives_wake holding log (.inl rfl) (d := .readPoll true)
    (x := between (key :: keys) display returned) rfl .echo
  have hecho := hwake.trans (drives_client rfl)
  have hblock := hecho.trans (drives_block writeDone (.next key))
  exact ⟨_, _, hblock.trans (drives_wake holding _ (.inr rfl) (d := .writeDone) rfl _)⟩

/-- A `0xff` comes while `ConsoleTest` waits, and another key after it. -/
theorem drives_overwrite (key : Byte) (keys display returned : List Byte) (log : List Event) :
    ∃ as k, Drives
      (idleKernel holding (between (EOF :: key :: keys) display returned) log readAvail .echo)
      as k ∧ k.shared.overwritten = true :=
  ⟨[.interrupt (.readPoll true), .exec, .exec, .interrupt (.readPoll true)], _,
    ⟨of_decide_eq_true rfl, rfl⟩, rfl⟩

/-- The same after `ConsoleTest` has returned. -/
theorem drives_overwrite_after (key : Byte) (keys display returned : List Byte)
    (log : List Event) :
    ∃ as k, Drives (busyKernel holding (between (EOF :: key :: keys) display returned) log [])
      as k ∧ k.shared.overwritten = true :=
  ⟨[.start [.oneTick], .exec, .interrupt (.readPoll true), .exec, .exec,
      .interrupt (.readPoll true)], _, ⟨of_decide_eq_true rfl, rfl⟩, rfl⟩

/-- If the keys are not `Kept`, a character can be overwritten. -/
theorem exists_overwrite {keys : List Byte} (h : ¬Kept keys) (display returned : List Byte)
    (log : List Event) :
    ∃ as k, Drives (idleKernel holding (between keys display returned) log readAvail .echo) as k ∧
      k.shared.overwritten = true := by
  induction keys generalizing display returned log with
  | nil => exact absurd trivial h
  | cons key keys ih =>
      cases keys with
      | nil => exact absurd trivial h
      | cons key' keys =>
          by_cases heof : key = EOF
          · subst heof
            exact drives_overwrite holding key' keys display returned log
          · obtain ⟨as, log', hround⟩ :=
              drives_round holding key (key' :: keys) display returned log
            by_cases hquit : key = 0x71
            · have hlost : ¬(key' = EOF → keys = []) := fun hnext =>
                h ⟨heof, by rwa [if_pos hquit]⟩
              obtain ⟨hkey', hkeys⟩ := Classical.not_imp.mp hlost
              obtain ⟨key'', keys, rfl⟩ := List.exists_cons_of_ne_nil hkeys
              subst hkey'
              have hreturn := hround.trans (drives_client (congrArg some
                (congrArg (Prod.mk _) (if_pos hquit))))
              obtain ⟨bs, k, hrest, hover⟩ := drives_overwrite_after holding key'' keys
                (display ++ [key]) (returned ++ [key]) log'
              exact ⟨_, k, hreturn.trans hrest, hover⟩
            · have hrest : ¬Kept (key' :: keys) := fun hnext =>
                h ⟨heof, by rwa [if_neg hquit]⟩
              have hnext := hround.trans (drives_client (congrArg some
                (congrArg (Prod.mk _) (if_neg hquit))))
              have hblock := hnext.trans (drives_block readAvail .echo)
              obtain ⟨bs, k, hafter, hover⟩ := ih hrest (display ++ [key]) (returned ++ [key]) log'
              exact ⟨_, k, hblock.trans hafter, hover⟩

end Rounds

/-- **The input is kept in every run exactly when the keys are `Kept`.** -/
theorem inputKept_iff (typed : List Byte) (holding : Nat → Option ThreadPtr) :
    (∀ as k, Along (Kernel.step consoleTest) Admissible
        (.init (fun _ => 0) holding (.start typed)) as →
      run (Kernel.step consoleTest) (.init (fun _ => 0) holding (.start typed)) as = some k →
        InputKept typed k.shared) ↔ Kept typed := by
  constructor
  · intro hall
    by_contra hnot
    obtain ⟨as, k, hrun, hover⟩ := exists_overwrite holding hnot [] [] []
    have hstart : Drives (.init (fun _ => 0) holding (.start typed))
        [.start [.client .consoleTest]]
        (busyKernel holding (.start typed) [] [.call (.client .consoleTest)]) :=
      ⟨of_decide_eq_true rfl, rfl⟩
    have hconsole := hstart.trans (drives_client rfl)
    have hall' := (hconsole.trans (drives_block readAvail .echo)).trans hrun
    have hkept := hall _ k hall'.admissible hall'.run
    rw [hkept.overwritten] at hover
    cases hover
  · intro hkept as k hok hrun
    exact inputKept_of_kept hkept hok hrun

/-- The keys `0xff` and `a`, with two polls before `ConsoleTest` fetches. -/
def lossyRun : List (Action ConsoleCode ConsoleInterrupt) :=
  [.start [.client .consoleTest], .exec, .exec, .exec, .interrupt (.readPoll true), .exec, .exec,
    .interrupt (.readPoll true)] ++ List.replicate 11 .exec ++ [.interrupt .writeDone] ++
    List.replicate 13 .exec

/-- `GetChar` returns `a` first, and then `EOF` from the empty buffer. -/
theorem eof_key_lost : ∃ k : Kernel ConsoleCode ConsoleData,
    Along (Kernel.step consoleTest) Admissible
      (.init (fun _ => 0) (fun _ => none) (.start [0xff, 0x61])) lossyRun ∧
    run (Kernel.step consoleTest) (.init (fun _ => 0) (fun _ => none) (.start [0xff, 0x61]))
      lossyRun = some k ∧ k.shared.returned = [0x61, 0xff] ∧ k.shared.overwritten = true ∧
    ¬InputKept [0xff, 0x61] k.shared :=
  ⟨_, by decide, rfl, rfl, rfl, fun h => nomatch h.overwritten⟩

end Nachos.Userprog

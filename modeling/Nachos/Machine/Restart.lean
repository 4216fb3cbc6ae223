import Mathlib.Data.Option.Basic
import Nachos.Machine.Mips
import Nachos.Machine.Paging

/-!
# Exceptions are precise and instructions can be restarted

An instruction that raises an exception has changed no register and no byte of
memory before it.  `Restartable` is the property of a piece of `OneInstruction`
from which this follows, together with the second half: the piece does the same
from the state of the first attempt and from the state after `RaiseException`,
as long as it stays away from the register that awaits a delayed load.

A piece is put together from pieces that only read, `Reading`, and pieces that
raise nothing, `Writing`.  All reads, and with them all faults, come before the
first write; this is what the two rules `Reading.bind` and `Restartable.bind`
ask for.
-/

namespace Nachos.Machine

open Function Lib Lib.Exec Code

variable {α β : Type}

namespace State

/-- Register 0 is zero, and the target of the delayed load is a general
register. -/
structure Valid (s : State) : Prop where
  zero : s.registers (gp R0) = 0
  load : (s.registers LoadReg).toNat < NumGPRegs

/-- The register awaits a delayed load.  Register 0 with the value 0 is what
`DelayedLoad(0, 0)` leaves: nothing is pending then. -/
def Awaits (s : State) (r : Fin NumGPRegs) : Prop :=
  s.registers LoadReg = BitVec.ofNat 32 r ∧
    ¬(s.registers LoadReg = 0 ∧ s.registers LoadValueReg = 0)

instance (s : State) (r : Fin NumGPRegs) : Decidable (s.Awaits r) :=
  inferInstanceAs (Decidable (_ ∧ _))

/-- The same registers and the same bytes.  The bits `use` and `dirty` of the
translation table may differ. -/
structure Unchanged (s s' : State) : Prop where
  registers : s'.registers = s.registers
  mainMemory : s'.memory.mainMemory = s.memory.mainMemory
  disk : s'.memory.disk = s.memory.disk

/-- The two states differ in `BadVAddrReg` only. -/
structure SameButBadVAddr (s t : State) : Prop where
  memory : t.memory = s.memory
  registers : ∀ r, r ≠ BadVAddrReg → t.registers r = s.registers r

/-- The state at the call of `ExceptionHandler` after an exception in `s`: the
delayed load is applied and cleared, register 0 is zero, `BadVAddrReg` is set,
and nothing else has changed. -/
structure Trapped (s : State) (trap : Trap) (h : State) : Prop where
  zero : h.registers (gp R0) = 0
  applied : ∀ r : Fin NumGPRegs, s.registers LoadReg = BitVec.ofNat 32 r → r ≠ R0 →
    h.registers (gp r) = s.registers LoadValueReg
  cleared : h.registers LoadReg = 0 ∧ h.registers LoadValueReg = 0
  badVAddr : h.registers BadVAddrReg = trap.badVAddr
  others : ∀ r : Register, r ≠ gp R0 → r.val ≠ (s.registers LoadReg).toNat → r ≠ LoadReg →
    r ≠ LoadValueReg → r ≠ BadVAddrReg → h.registers r = s.registers r
  mainMemory : h.memory.mainMemory = s.memory.mainMemory
  disk : h.memory.disk = s.memory.disk

end State

/-! ## The delayed load -/

/-- `registers` after `DelayedLoad`. -/
def State.loaded (s : State) (nextReg nextValue : Word) : State :=
  { s with
    registers := fun r =>
      if r = gp R0 then 0
      else if r = LoadValueReg then nextValue
      else if r = LoadReg then nextReg
      else if r.val = (s.registers LoadReg).toNat then s.registers LoadValueReg
      else s.registers r }

theorem Code.delayedLoad_eq {s : State} (h : (s.registers LoadReg).toNat < NumTotalRegs)
    (nextReg nextValue : Word) :
    delayedLoad nextReg nextValue s = some (.ok (), s.loaded nextReg nextValue) := by
  have hrun : delayedLoad nextReg nextValue s = some (.ok (),
      { s with registers :=
          update (update (update (update s.registers ⟨(s.registers LoadReg).toNat, h⟩
            (s.registers LoadValueReg)) LoadReg nextReg) LoadValueReg nextValue) (gp R0) 0 }) := by
    show (if h : (s.registers LoadReg).toNat < NumTotalRegs then _ else Exec.crash : Code Unit) s = _
    rw [dif_pos h]
    rfl
  rw [hrun]
  congr 3
  funext r
  simp only [update_apply, Fin.ext_iff]

theorem Code.delayedLoad_crash {s : State} (h : ¬(s.registers LoadReg).toNat < NumTotalRegs)
    (nextReg nextValue : Word) : delayedLoad nextReg nextValue s = none := by
  show (if h : (s.registers LoadReg).toNat < NumTotalRegs then _ else Exec.crash : Code Unit) s = _
  rw [dif_neg h]
  rfl

theorem Code.raiseException_eq {s : State} (h : (s.registers LoadReg).toNat < NumTotalRegs)
    (badVAddr : Word) :
    raiseException badVAddr s = some (.ok (),
      State.loaded { s with registers := update s.registers BadVAddrReg badVAddr } 0 0) := by
  show delayedLoad 0 0 { s with registers := update s.registers BadVAddrReg badVAddr } = _
  refine delayedLoad_eq ?_ 0 0
  show (update s.registers BadVAddrReg badVAddr LoadReg).toNat < NumTotalRegs
  rw [update_of_ne (by decide)]
  exact h

/-! ## The two executions

The first attempt starts in a state with a delayed load of `value` to `target`;
the second one starts with the load applied. -/

/-- The registers in which the two executions differ. -/
def Hidden (target value : Word) (r : Register) : Prop :=
  r = LoadReg ∨ r = LoadValueReg ∨ r = BadVAddrReg ∨
    r.val = target.toNat ∧ ¬(target = 0 ∧ value = 0)

/-- `s` is a state of the first attempt, and `t` the state of the second attempt
at the same point of the instruction. -/
structure Restarted (target value : Word) (s t : State) : Prop where
  memory : t.memory = s.memory
  load : s.registers LoadReg = target
  loadValue : s.registers LoadValueReg = value
  cleared : t.registers LoadReg = 0
  clearedValue : t.registers LoadValueReg = 0
  applied : ∀ r : Register, r.val = target.toNat → r ≠ gp R0 → t.registers r = value
  agree : ∀ r, ¬Hidden target value r → t.registers r = s.registers r

/-- No register has been written yet. -/
def Fresh (target value : Word) (s t : State) : Prop :=
  Restarted target value s t ∧ s.registers (gp R0) = 0

/-- A piece that changes no register and no byte, whether it raises or not. -/
structure Reading (target value : Word) (p : Code α) : Prop where
  precise : ∀ s : State, Triple s.Unchanged p (fun _ => s.Unchanged) (fun _ => s.Unchanged)
  restarts : Rel (Fresh target value) p (fun _ => Fresh target value)
    (fun _ => Restarted target value)

/-- A piece that raises nothing. -/
structure Writing (target value : Word) (p : Code α) : Prop where
  silent : Triple (fun _ => True) p (fun _ _ => True) (fun _ _ => False)
  restarts : Rel (Restarted target value) p (fun _ => Restarted target value)
    (fun _ => Restarted target value)

/-- A piece that changes nothing before it raises. -/
structure Restartable (target value : Word) (p : Code α) : Prop where
  precise : ∀ s : State, Triple s.Unchanged p (fun _ _ => True) (fun _ => s.Unchanged)
  restarts : Rel (Fresh target value) p (fun _ => Restarted target value)
    (fun _ => Restarted target value)

section Rules

variable {target value : Word} {p : Code α} {f : α → Code β}

theorem Reading.seq (hp : Reading target value p) (hf : ∀ a, Reading target value (f a)) :
    Reading target value (p >>= f) where
  precise s := (hp.precise s).bind fun a => (hf a).precise s
  restarts := hp.restarts.bind fun a => (hf a).restarts

theorem Reading.bind (hp : Reading target value p) (hf : ∀ a, Restartable target value (f a)) :
    Restartable target value (p >>= f) where
  precise s := (hp.precise s).bind fun a => (hf a).precise s
  restarts := hp.restarts.bind fun a => (hf a).restarts

theorem Restartable.bind (hp : Restartable target value p)
    (hf : ∀ a, Writing target value (f a)) : Restartable target value (p >>= f) where
  precise s := (hp.precise s).bind fun a =>
    (hf a).silent.mono (fun _ _ => trivial) (fun _ _ _ => trivial) fun _ _ h => h.elim
  restarts := hp.restarts.bind fun a => (hf a).restarts

theorem Writing.bind (hp : Writing target value p) (hf : ∀ a, Writing target value (f a)) :
    Writing target value (p >>= f) where
  silent := hp.silent.bind fun a => (hf a).silent
  restarts := hp.restarts.bind fun a => (hf a).restarts

theorem Writing.restartable (hp : Writing target value p) : Restartable target value p where
  precise _ := hp.silent.mono (fun _ _ => trivial) (fun _ _ _ => trivial) fun _ _ h => h.elim
  restarts := hp.restarts.mono (fun _ _ h => h.1) (fun _ _ _ h => h) fun _ _ _ h => h

theorem writing_pure (a : α) : Writing target value (pure a : Code α) where
  silent := Triple.pure fun _ _ => trivial
  restarts := Rel.pure fun _ _ h => h

theorem reading_pure (a : α) : Reading target value (pure a : Code α) where
  precise _ := Triple.pure fun _ h => h
  restarts := Rel.pure fun _ _ h => h

theorem restartable_raise (trap : Trap) :
    Restartable target value (Exec.raise trap : Code α) where
  precise _ := Triple.raise fun _ h => h
  restarts := Rel.raise fun _ _ h => h.1

theorem restartable_crash : Restartable target value (Exec.crash : Code α) where
  precise _ := Triple.crash
  restarts := Rel.crash

end Rules

/-! ## The pieces -/

section Pieces

variable {target value : Word} {r : Register}

theorem Restarted.setReg {s t : State} (h : Restarted target value s t)
    (hload : r ≠ LoadReg) (hvalue : r ≠ LoadValueReg)
    (hawait : ¬(r.val = target.toNat ∧ ¬(target = 0 ∧ value = 0))) (v : Word) :
    Restarted target value { s with registers := update s.registers r v }
      { t with registers := update t.registers r v } where
  memory := h.memory
  load := by
    show update s.registers r v LoadReg = target
    rw [update_of_ne hload.symm]
    exact h.load
  loadValue := by
    show update s.registers r v LoadValueReg = value
    rw [update_of_ne hvalue.symm]
    exact h.loadValue
  cleared := by
    show update t.registers r v LoadReg = 0
    rw [update_of_ne hload.symm]
    exact h.cleared
  clearedValue := by
    show update t.registers r v LoadValueReg = 0
    rw [update_of_ne hvalue.symm]
    exact h.clearedValue
  applied q hq h0 := by
    have hne : q ≠ r := by
      intro e
      subst e
      refine hawait ⟨hq, fun hnone => h0 (Fin.ext ?_)⟩
      rw [hq, hnone.1]
      rfl
    show update t.registers r v q = value
    rw [update_of_ne hne]
    exact h.applied q hq h0
  agree q hq := by
    show update t.registers r v q = update s.registers r v q
    rw [update_apply, update_apply, h.agree q hq]

theorem Restarted.setMemory {s t : State} (h : Restarted target value s t) (m : Memory) :
    Restarted target value { s with memory := m } { t with memory := m } :=
  { h with memory := rfl }

theorem reading_reg (hr : ¬Hidden target value r) :
    Reading target value (reg r) where
  precise s := by
    intro s1 h1 res s2 hrun
    cases hrun
    exact h1
  restarts := by
    intro s t hst
    show Related _ _ (some (.ok (s.registers r), s)) (some (.ok (t.registers r), t))
    rw [hst.1.agree r hr]
    exact .ok hst

theorem writing_reg (hr : ¬Hidden target value r) :
    Writing target value (reg r) where
  silent := by
    intro s _ res s' hrun
    cases hrun
    trivial
  restarts := by
    intro s t hst
    show Related _ _ (some (.ok (s.registers r), s)) (some (.ok (t.registers r), t))
    rw [hst.agree r hr]
    exact .ok hst

theorem writing_setReg (hr : ¬Hidden target value r) (v : Word) :
    Writing target value (setReg r v) where
  silent := by
    intro s _ res s' hrun
    cases hrun
    trivial
  restarts _ _ hst :=
    .ok (hst.setReg (fun e => hr (Or.inl e)) (fun e => hr (Or.inr (Or.inl e)))
      (fun e => hr (Or.inr (Or.inr (Or.inr e)))) v)

theorem reading_assert (b : Bool) : Reading target value (Code.assert b) := by
  cases b with
  | true => exact reading_pure ()
  | false => exact ⟨fun _ => Triple.crash, Rel.crash⟩

/-- A translation moves no byte. -/
theorem State.Unchanged.translate {s s' : State} {tid size physicalAddress : Nat} {addr : Word}
    {writing : Bool} {m : Memory} (h : s.Unchanged s')
    (htranslate : s'.memory.translate tid addr size writing = some (.ok (physicalAddress, m))) :
    s.Unchanged { s' with memory := m } := by
  rcases Memory.translate_cases htranslate with ⟨hr, _⟩ | ⟨e, _, hr⟩ | ⟨_, i, _, hr⟩
  · cases hr
  · cases hr
  · cases hr
    exact ⟨h.registers, h.mainMemory, h.disk⟩

theorem reading_readMem (tid : Nat) (addr : Word) (size : Nat) :
    Reading target value (readMem tid addr size) where
  precise s := by
    intro s1 h1 res s2 hrun
    simp only [readMem] at hrun
    split at hrun
    · cases hrun
    · cases hrun
      exact h1
    · rename_i htranslate
      obtain ⟨v, _, hv⟩ := Option.map_eq_some_iff.mp hrun
      cases hv
      exact h1.translate htranslate
  restarts := by
    intro s t hst
    simp only [readMem, hst.1.memory]
    split
    · exact .crash
    · exact .error hst.1
    · rename_i m _
      cases Memory.readValue m.mainMemory.get _ size with
      | none => exact .crash
      | some v => exact .ok ⟨hst.1.setMemory m, hst.2⟩

theorem restartable_writeMem (tid : Nat) (addr : Word) (size : Nat) (v : Word) :
    Restartable target value (writeMem tid addr size v) where
  precise s := by
    intro s1 h1 res s2 hrun
    simp only [writeMem] at hrun
    split at hrun
    · cases hrun
    · cases hrun
      exact h1
    · obtain ⟨f, _, hf⟩ := Option.map_eq_some_iff.mp hrun
      cases hf
      trivial
  restarts := by
    intro s t hst
    simp only [writeMem, hst.1.memory]
    split
    · exact .crash
    · exact .error hst.1
    · rename_i m _
      cases Memory.writeValue m.mainMemory.get _ size v with
      | none => exact .crash
      | some f => exact .ok (hst.1.setMemory (m.poke f))

end Pieces

/-! ## The instructions -/

namespace Instruction

variable {target value : Word} {i : Instruction}

theorem not_hidden_special (htarget : target.toNat < NumGPRegs) {r : Register}
    (hr : NumGPRegs ≤ r.val ∧ r.val < LoadReg.val) : ¬Hidden target value r := by
  intro h
  rcases h with rfl | rfl | rfl | ⟨h, _⟩
  · exact absurd hr.2 (by decide)
  · exact absurd hr.2 (by decide)
  · exact absurd hr.2 (by decide)
  · omega

theorem writing_next (pcAfter : Word) : Writing target value (next pcAfter) :=
  writing_pure _

/-- The end of a case that writes one register. -/
theorem writing_result {r : Register} (hr : ¬Hidden target value r) (v pcAfter : Word) :
    Writing target value (do setReg r v; next pcAfter : Code Next) :=
  (writing_setReg hr v).bind fun _ => writing_next pcAfter

theorem restartable_move {source dest : Register} (hsource : ¬Hidden target value source)
    (hdest : ¬Hidden target value dest) (pcAfter : Word) :
    Restartable target value (move pcAfter source dest) :=
  (reading_reg hsource).bind fun _ => (writing_result hdest _ pcAfter).restartable

section Cases

variable (pcAfter : Word)

theorem restartable_shiftRd (hrt : ¬Hidden target value (gp i.rt))
    (hrd : ¬Hidden target value (gp i.rd)) (f : Word → Word → Word) :
    Restartable target value (i.shiftRd pcAfter f) :=
  (reading_reg hrt).bind fun _ => (writing_result hrd _ pcAfter).restartable

theorem writing_branch (htarget : target.toNat < NumGPRegs) (taken : Bool) :
    Writing target value (i.branch pcAfter taken) :=
  (writing_reg (not_hidden_special htarget (by decide))).bind fun _ => writing_pure _

theorem writing_link (htarget : target.toNat < NumGPRegs) {r : Fin NumGPRegs}
    (hr : ¬Hidden target value (gp r)) : Writing target value (link r) :=
  (writing_reg (not_hidden_special htarget (by decide))).bind fun _ => writing_setReg hr _

theorem writing_jump : Writing target value (i.jump pcAfter) :=
  writing_pure _

theorem forwarded_apply (i : Instruction) (s : State) :
    i.forwarded s = some (.ok (if s.registers LoadReg = BitVec.ofNat 32 i.rt
      then s.registers LoadValueReg else s.registers (gp i.rt)), s) := by
  show (if s.registers LoadReg = BitVec.ofNat 32 i.rt then reg LoadValueReg
    else reg (gp i.rt) : Code Word) s = _
  split <;> rfl

theorem eq_R0_of_ofNat {r : Fin NumGPRegs} (h : 0 = BitVec.ofNat 32 r) : r = R0 := by
  apply Fin.ext
  have hr : r.val < 32 := r.isLt
  have hval := congrArg BitVec.toNat h
  rw [BitVec.toNat_ofNat, Nat.mod_eq_of_lt (by omega)] at hval
  exact hval.symm

theorem toNat_ofNat_gp (r : Fin NumGPRegs) : (BitVec.ofNat 32 r).toNat = (gp r).val := by
  have hr : r.val < 32 := r.isLt
  rw [BitVec.toNat_ofNat, Nat.mod_eq_of_lt (by omega)]
  rfl

/-- Both attempts see the same value: in the second one the load is no longer
pending, and a register that does not await it holds the value it had. -/
theorem reading_forwarded (hrt : ¬Hidden target value (gp i.rt)) :
    Reading target value i.forwarded where
  precise s := by
    intro s1 h1 res s2 hrun
    rw [forwarded_apply] at hrun
    cases hrun
    exact h1
  restarts := by
    intro s t hst
    rw [forwarded_apply, forwarded_apply, hst.1.load, hst.1.loadValue, hst.1.cleared,
      hst.1.clearedValue]
    suffices hsame : (if (0 : Word) = BitVec.ofNat 32 i.rt then 0 else t.registers (gp i.rt)) =
        if target = BitVec.ofNat 32 i.rt then value else s.registers (gp i.rt) by
      rw [hsame]
      exact .ok hst
    by_cases htarget : target = BitVec.ofNat 32 i.rt
    · -- The load goes to `rt`, so it is the one that loads nothing.
      have hnone : target = 0 ∧ value = 0 := by
        refine Classical.byContradiction fun hpending =>
          hrt (Or.inr (Or.inr (Or.inr ⟨?_, hpending⟩)))
        rw [htarget, toNat_ofNat_gp]
      rw [if_pos htarget, if_pos (hnone.1.symm.trans htarget), hnone.2]
    · rw [if_neg htarget]
      by_cases hzero : (0 : Word) = BitVec.ofNat 32 i.rt
      · rw [if_pos hzero, eq_R0_of_ofNat hzero, hst.2]
      · rw [if_neg hzero, hst.1.agree _ hrt]

variable (hrs : ¬Hidden target value (gp i.rs))

include hrs

theorem reading_address : Reading target value i.address :=
  (reading_reg hrs).seq fun _ => reading_pure _

theorem writing_branchRs (htarget : target.toNat < NumGPRegs) (taken : Word → Bool) :
    Writing target value (i.branchRs pcAfter taken) :=
  (writing_reg hrs).bind fun _ => writing_branch pcAfter htarget _

theorem writing_jumpRegister : Writing target value i.jumpRegister :=
  (writing_reg hrs).bind fun _ => writing_pure _

theorem restartable_load (tid size : Nat) (align : Word) (f : Word → Word) :
    Restartable target value (i.load pcAfter tid size align f) := by
  refine (reading_address hrs).bind fun tmp => ?_
  split
  · exact restartable_raise _
  · exact (reading_readMem tid tmp size).bind fun _ => (writing_pure _).restartable

variable (hrt : ¬Hidden target value (gp i.rt))

include hrt

theorem restartable_computeRd (hrd : ¬Hidden target value (gp i.rd)) (f : Word → Word → Word) :
    Restartable target value (i.computeRd pcAfter f) :=
  (reading_reg hrs).bind fun _ => (reading_reg hrt).bind fun _ =>
    (writing_result hrd _ pcAfter).restartable

theorem restartable_computeRt (f : Word → Word → Word) :
    Restartable target value (i.computeRt pcAfter f) :=
  (reading_reg hrs).bind fun _ => (writing_result hrt _ pcAfter).restartable

theorem restartable_checkedRd (hrd : ¬Hidden target value (gp i.rd)) (f : Word → Word → Word)
    (overflows : Word → Word → Word → Bool) :
    Restartable target value (i.checkedRd pcAfter f overflows) := by
  refine (reading_reg hrs).bind fun rs => (reading_reg hrt).bind fun rt => ?_
  split
  · exact restartable_raise _
  · exact (writing_result hrd _ pcAfter).restartable

theorem restartable_checkedRt : Restartable target value (i.checkedRt pcAfter) := by
  refine (reading_reg hrs).bind fun rs => ?_
  show Restartable target value (if _ then _ else _)
  split
  · exact restartable_raise _
  · exact (writing_result hrt _ pcAfter).restartable

theorem writing_branchRsRt (htarget : target.toNat < NumGPRegs) (taken : Word → Word → Bool) :
    Writing target value (i.branchRsRt pcAfter taken) :=
  (writing_reg hrs).bind fun _ => (writing_reg hrt).bind fun _ =>
    writing_branch pcAfter htarget _

theorem restartable_setHiLo (htarget : target.toNat < NumGPRegs)
    (f : Word → Word → Option (Word × Word)) :
    Restartable target value (i.setHiLo pcAfter f) := by
  refine (reading_reg hrs).bind fun rs => (reading_reg hrt).bind fun rt => ?_
  cases f rs rt with
  | none => exact restartable_crash
  | some hiLo =>
      have hlo : Writing target value (setReg LoReg hiLo.2) :=
        writing_setReg (not_hidden_special htarget (by decide)) _
      have hhi : Writing target value (do setReg HiReg hiLo.1; next pcAfter : Code Next) :=
        writing_result (not_hidden_special htarget (by decide)) _ pcAfter
      exact (hlo.bind fun _ => hhi).restartable

theorem restartable_loadMerged (tid : Nat) (merge : Nat → Word → Word → Word) :
    Restartable target value (i.loadMerged pcAfter tid merge) :=
  (reading_address hrs).bind fun _ => (reading_assert _).bind fun _ =>
    (reading_readMem tid _ 4).bind fun _ => (reading_forwarded hrt).bind fun _ =>
      (writing_pure _).restartable

theorem restartable_store (tid size : Nat) :
    Restartable target value (i.store pcAfter tid size) :=
  (reading_address hrs).bind fun _ => (reading_reg hrt).bind fun _ =>
    (restartable_writeMem tid _ size _).bind fun _ => writing_next pcAfter

theorem restartable_storeMerged (tid : Nat) (merge : Nat → Word → Word → Word) :
    Restartable target value (i.storeMerged pcAfter tid merge) :=
  (reading_address hrs).bind fun _ => (reading_assert _).bind fun _ =>
    (reading_readMem tid _ 4).bind fun _ => (reading_reg hrt).bind fun _ =>
      (restartable_writeMem tid _ 4 _).bind fun _ => writing_next pcAfter

end Cases

/-- Every instruction changes nothing before it raises, and can be restarted if
none of its operands awaits a delayed load. -/
theorem restartable_execute (htarget : target.toNat < NumGPRegs)
    (h : ∀ r ∈ i.operands, ¬Hidden target value (gp r)) (pcAfter : Word) (tid : Nat) :
    Restartable target value (i.execute pcAfter tid) := by
  have hhi : ¬Hidden target value HiReg := not_hidden_special htarget (by decide)
  have hlo : ¬Hidden target value LoReg := not_hidden_special htarget (by decide)
  unfold execute
  unfold operands at h
  generalize i.opCode = op at h ⊢
  cases op with
  | add | sub =>
      refine restartable_checkedRd pcAfter ?_ ?_ ?_ _ _
      all_goals exact h _ (by simp)
  | addi =>
      refine restartable_checkedRt pcAfter ?_ ?_
      all_goals exact h _ (by simp)
  | addu | and | nor | slt | sltu | sllv | srav | srlv | subu | xor =>
      refine restartable_computeRd pcAfter ?_ ?_ ?_ _
      all_goals exact h _ (by simp)
  | addiu | andi | ori | slti | sltiu | xori =>
      refine restartable_computeRt pcAfter ?_ ?_ _
      all_goals exact h _ (by simp)
  | sll | sra | srl =>
      refine restartable_shiftRd pcAfter ?_ ?_ _
      all_goals exact h _ (by simp)
  | lui => exact (writing_result (h i.rt (by simp)) _ pcAfter).restartable
  | or =>
      exact (reading_reg (h i.rs (by simp))).bind fun _ =>
        (writing_result (h i.rd (by simp)) _ pcAfter).restartable
  | mfhi => exact restartable_move hhi (h i.rd (by simp)) pcAfter
  | mflo => exact restartable_move hlo (h i.rd (by simp)) pcAfter
  | mthi => exact restartable_move (h i.rs (by simp)) hhi pcAfter
  | mtlo => exact restartable_move (h i.rs (by simp)) hlo pcAfter
  | div | divu | mult | multu =>
      refine restartable_setHiLo pcAfter ?_ ?_ htarget _
      all_goals exact h _ (by simp)
  | beq | bne =>
      refine (writing_branchRsRt pcAfter ?_ ?_ htarget _).restartable
      all_goals exact h _ (by simp)
  | bgez | bgtz | blez | bltz =>
      refine (writing_branchRs pcAfter ?_ htarget _).restartable
      exact h _ (by simp)
  | bgezal | bltzal =>
      refine ((writing_link htarget ?_).bind fun _ =>
        writing_branchRs pcAfter ?_ htarget _).restartable
      all_goals exact h _ (by simp)
  | j => exact (writing_jump pcAfter).restartable
  | jal =>
      refine ((writing_link htarget ?_).bind fun _ => writing_jump pcAfter).restartable
      exact h _ (by simp)
  | jr =>
      refine (writing_jumpRegister ?_).restartable
      exact h _ (by simp)
  | jalr =>
      refine ((writing_link htarget ?_).bind fun _ => writing_jumpRegister ?_).restartable
      all_goals exact h _ (by simp)
  | lb | lbu | lh | lhu | lw =>
      refine restartable_load pcAfter ?_ tid _ _ _
      exact h _ (by simp)
  | lwl | lwr =>
      refine restartable_loadMerged pcAfter ?_ ?_ tid _
      all_goals exact h _ (by simp)
  | sb | sh | sw =>
      refine restartable_store pcAfter ?_ ?_ tid _
      all_goals exact h _ (by simp)
  | swl | swr =>
      refine restartable_storeMerged pcAfter ?_ ?_ tid _
      all_goals exact h _ (by simp)
  | syscall | unimp | res => exact restartable_raise _

end Instruction

/-! ## The end of an instruction -/

section End

variable {target value : Word}

/-- The end of an instruction raises nothing, and register 0 is zero after it. -/
theorem valid_advance (n : Next) :
    Triple (fun _ => True) (State.advance n) (fun _ => State.Valid) (fun _ _ => False) := by
  intro s _ res s' hrun
  by_cases h : (s.registers LoadReg).toNat < NumTotalRegs
  · simp only [State.advance, bind_apply, delayedLoad_eq h] at hrun
    cases hrun
    refine ⟨rfl, ?_⟩
    show (BitVec.ofNat 32 n.nextLoadReg).toNat < NumGPRegs
    rw [Instruction.toNat_ofNat_gp]
    exact n.nextLoadReg.isLt
  · simp only [State.advance, bind_apply, delayedLoad_crash h] at hrun
    cases hrun

/-- The delayed load makes the two executions meet. -/
theorem Restarted.loaded {s t : State} (h : Restarted target value s t) (nextReg nextValue : Word) :
    (s.loaded nextReg nextValue).SameButBadVAddr (t.loaded nextReg nextValue) where
  memory := h.memory
  registers r hbad := by
    simp only [State.loaded, h.load, h.loadValue, h.cleared, h.clearedValue]
    by_cases h0 : r = gp R0
    · rw [if_pos h0, if_pos h0]
    rw [if_neg h0, if_neg h0]
    by_cases hvalue : r = LoadValueReg
    · rw [if_pos hvalue, if_pos hvalue]
    rw [if_neg hvalue, if_neg hvalue]
    by_cases hload : r = LoadReg
    · rw [if_pos hload, if_pos hload]
    have hr0 : r.val ≠ (0 : Word).toNat := fun e => h0 (Fin.ext e)
    rw [if_neg hload, if_neg hload, if_neg hr0]
    by_cases htarget : r.val = target.toNat
    · rw [if_pos htarget]
      exact h.applied r htarget h0
    · rw [if_neg htarget]
      refine h.agree r fun hhidden => ?_
      rcases hhidden with e | e | e | ⟨e, _⟩
      · exact hload e
      · exact hvalue e
      · exact hbad e
      · exact htarget e

theorem rel_delayedLoad (htarget : target.toNat < NumGPRegs) (nextReg nextValue : Word) :
    Rel (Restarted target value) (delayedLoad nextReg nextValue)
      (fun _ => State.SameButBadVAddr) (fun _ _ _ => False) := by
  intro s t hst
  have hs : (s.registers LoadReg).toNat < NumTotalRegs := by
    rw [hst.load]
    exact Nat.lt_trans htarget (by decide)
  have ht : (t.registers LoadReg).toNat < NumTotalRegs := by
    rw [hst.cleared]
    decide
  rw [delayedLoad_eq hs, delayedLoad_eq ht]
  exact .ok (hst.loaded nextReg nextValue)

theorem rel_advance (htarget : target.toNat < NumGPRegs) (n : Next) :
    Rel (Restarted target value) (State.advance n) (fun _ => State.SameButBadVAddr)
      (fun _ _ _ => False) := by
  refine (rel_delayedLoad htarget _ _).bind fun _ => ?_
  intro s t hst
  refine .ok ⟨hst.memory, fun r hr => ?_⟩
  simp only [update_apply]
  rw [hst.registers r hr, hst.registers PCReg (by decide), hst.registers NextPCReg (by decide)]

theorem rel_raiseException (htarget : target.toNat < NumGPRegs) (badVAddr : Word) :
    Rel (Restarted target value) (raiseException badVAddr) (fun _ => State.SameButBadVAddr)
      (fun _ _ _ => False) := by
  have hset : Rel (Restarted target value) (setReg BadVAddrReg badVAddr)
      (fun _ => Restarted target value) (fun _ _ _ => False) := by
    intro s t hst
    refine .ok (hst.setReg (by decide) (by decide) (fun hawait => ?_) badVAddr)
    exact absurd (hawait.1 ▸ htarget) (by decide)
  exact hset.bind fun _ => rel_delayedLoad htarget 0 0

end End

/-! ## `OneInstruction` -/

namespace State

/-- The instruction at the program counter. -/
def fetched (s : State) (tid : Nat) : Option Instruction :=
  match readMem tid (s.registers PCReg) 4 s with
  | some (.ok raw, _) => some (decode raw)
  | _ => none

/-- The instruction neither reads nor writes the register that awaits a delayed
load. -/
def LoadDelayRule (s : State) (tid : Nat) : Prop :=
  ∀ i ∈ s.fetched tid, ∀ r ∈ i.operands, ¬s.Awaits r

instance (s : State) (tid : Nat) : Decidable (s.LoadDelayRule tid) := by
  unfold LoadDelayRule
  infer_instance

/-- An instruction that raises has changed no register and no byte. -/
theorem instruction_precise (s : State) (tid : Nat) :
    Triple s.Unchanged (instruction tid) (fun _ _ => True) (fun _ => s.Unchanged) := by
  -- Only the first half of `Restartable` is used, so no load need be pending.
  have hfree : ∀ r, ¬Hidden 0 0 (gp r) := by
    intro r h
    have hr : r.val < 32 := r.isLt
    rcases h with e | e | e | ⟨_, hpending⟩
    · exact absurd (congrArg Fin.val e) (Nat.ne_of_lt (Nat.lt_trans hr (by decide)))
    · exact absurd (congrArg Fin.val e) (Nat.ne_of_lt (Nat.lt_trans hr (by decide)))
    · exact absurd (congrArg Fin.val e) (Nat.ne_of_lt (Nat.lt_trans hr (by decide)))
    · exact hpending ⟨rfl, rfl⟩
  have hpc : Reading 0 0 (reg PCReg) :=
    reading_reg (Instruction.not_hidden_special (by decide) (by decide))
  have hnext : Reading 0 0 (reg NextPCReg) :=
    reading_reg (Instruction.not_hidden_special (by decide) (by decide))
  have hread : ∀ pc, Reading 0 0 (readMem tid pc 4) := fun pc => reading_readMem tid pc 4
  have hexecute : ∀ (i : Instruction) (pcAfter : Word),
      Restartable 0 0 (i.execute pcAfter tid) := fun i pcAfter =>
    Instruction.restartable_execute (by decide) (fun r _ => hfree r) pcAfter tid
  refine (hpc.precise s).bind fun pc => ((hread pc).precise s).bind fun raw =>
    (hnext.precise s).bind fun nextPC => ((hexecute (decode raw) _).precise s).bind fun n => ?_
  exact (valid_advance n).mono (fun _ _ => trivial) (fun _ _ _ => trivial)
    fun _ _ h => h.elim

theorem gp_ne_of_le {r : Fin NumGPRegs} {q : Register} (hq : NumGPRegs ≤ q.val) : gp r ≠ q :=
  fun e => absurd (congrArg Fin.val e) (Nat.ne_of_lt (Nat.lt_of_lt_of_le r.isLt hq))

/-- What `RaiseException` does to a state in which nothing has changed yet. -/
theorem Unchanged.trapped {s s' h : State} {trap : Trap} (hs : s.Valid)
    (hsame : s.Unchanged s') (hraise : raiseException trap.badVAddr s' = some (.ok (), h)) :
    s.Trapped trap h := by
  have hload : (s'.registers LoadReg).toNat < NumTotalRegs := by
    rw [hsame.registers]
    exact Nat.lt_trans hs.load (by decide)
  rw [raiseException_eq hload] at hraise
  cases hraise
  have hregs : ∀ r, (State.loaded
      { s' with registers := update s'.registers BadVAddrReg trap.badVAddr } 0 0).registers r =
        if r = gp R0 then 0
        else if r = LoadValueReg then 0
        else if r = LoadReg then 0
        else if r.val = (s.registers LoadReg).toNat then s.registers LoadValueReg
        else if r = BadVAddrReg then trap.badVAddr else s.registers r := by
    intro r
    simp only [State.loaded, hsame.registers, update_apply]
    rfl
  constructor
  case zero => rfl
  case applied =>
    intro r hr h0
    have hgp : gp r ≠ gp R0 := by
      intro e
      have hval : (gp r).val = (gp R0).val := congrArg Fin.val e
      exact h0 (Fin.ext hval)
    have hval : (gp r).val = (s.registers LoadReg).toNat := by
      rw [hr, Instruction.toNat_ofNat_gp]
    rw [hregs, if_neg hgp, if_neg (gp_ne_of_le (by decide)), if_neg (gp_ne_of_le (by decide)),
      if_pos hval]
  case cleared => exact ⟨rfl, rfl⟩
  case badVAddr =>
    have hval : BadVAddrReg.val ≠ (s.registers LoadReg).toNat :=
      (Nat.ne_of_lt (Nat.lt_trans hs.load (by decide))).symm
    rw [hregs, if_neg (by decide), if_neg (by decide), if_neg (by decide), if_neg hval,
      if_pos rfl]
  case others =>
    intro r h0 htarget hload hvalue hbad
    rw [hregs, if_neg h0, if_neg hvalue, if_neg hload, if_neg htarget, if_neg hbad]
  case mainMemory => exact hsame.mainMemory
  case disk => exact hsame.disk

variable {tid : Nat}

theorem trapped_of_raise {s h : State} {trap : Trap} (hs : s.Valid)
    (hraise : s.oneInstruction tid = some (some trap, h)) : s.Trapped trap h := by
  have hprecise := instruction_precise s tid s ⟨rfl, rfl, rfl⟩
  simp only [oneInstruction] at hraise
  split at hraise
  · cases hraise
  · cases hraise
  · rename_i trap' s' hinstr
    split at hraise
    · rename_i hcall
      cases hraise
      exact (hprecise _ s' hinstr).trapped hs hcall
    · cases hraise

/-- The state of the handler, with the memory that the handler leaves, starts the
second attempt. -/
theorem Trapped.fresh {s h : State} {trap : Trap} (ht : s.Trapped trap h) (hs : s.Valid)
    (m : Memory) : Fresh (s.registers LoadReg) (s.registers LoadValueReg)
      { s with memory := m } { h with memory := m } := by
  refine ⟨⟨rfl, rfl, rfl, ht.cleared.1, ht.cleared.2, ?_, ?_⟩, hs.zero⟩
  · intro r hr h0
    have hlt : r.val < NumGPRegs := hr ▸ hs.load
    refine ht.applied ⟨r.val, hlt⟩ ?_ ?_
    · apply BitVec.eq_of_toNat_eq
      rw [Instruction.toNat_ofNat_gp]
      exact hr.symm
    · intro e
      have hval : r.val = R0.val := congrArg Fin.val e
      exact h0 (Fin.ext hval)
  · intro r hr
    by_cases h0 : r = gp R0
    · subst h0
      exact ht.zero.trans hs.zero.symm
    · refine ht.others r h0 (fun htarget => hr (Or.inr (Or.inr (Or.inr ⟨htarget, ?_⟩))))
        (fun e => hr (Or.inl e)) (fun e => hr (Or.inr (Or.inl e)))
        fun e => hr (Or.inr (Or.inr (Or.inl e)))
      intro hnone
      apply h0
      apply Fin.ext
      rw [htarget, hnone.1]
      rfl

/-- A register that does not await the load is the same in both attempts. -/
theorem not_hidden_of_not_awaits {s : State} {r : Fin NumGPRegs} (h : ¬s.Awaits r) :
    ¬Hidden (s.registers LoadReg) (s.registers LoadValueReg) (gp r) := by
  intro hhidden
  rcases hhidden with e | e | e | ⟨e, hpending⟩
  · exact gp_ne_of_le (by decide) e
  · exact gp_ne_of_le (by decide) e
  · exact gp_ne_of_le (by decide) e
  · refine h ⟨?_, hpending⟩
    apply BitVec.eq_of_toNat_eq
    rw [Instruction.toNat_ofNat_gp, e]

theorem instruction_restarted {s t : State}
    (hst : Fresh (s.registers LoadReg) (s.registers LoadValueReg) s t)
    (hload : (s.registers LoadReg).toNat < NumGPRegs) (hrule : s.LoadDelayRule tid) :
    Related (fun _ => SameButBadVAddr)
      (fun _ => Restarted (s.registers LoadReg) (s.registers LoadValueReg))
      (instruction tid s) (instruction tid t) := by
  have hpc : t.registers PCReg = s.registers PCReg :=
    hst.1.agree PCReg (Instruction.not_hidden_special hload (by decide))
  -- From the fetched word on, the rule for the operands is known.
  have hrest : ∀ raw, (∀ r ∈ (decode raw).operands, ¬s.Awaits r) →
      Rel (Fresh (s.registers LoadReg) (s.registers LoadValueReg))
        (do let nextPC ← reg NextPCReg
            let n ← (decode raw).execute (nextPC + 4) tid
            advance n : Code Unit)
        (fun _ => SameButBadVAddr)
        (fun _ => Restarted (s.registers LoadReg) (s.registers LoadValueReg)) := by
    intro raw hoperands
    refine (reading_reg (Instruction.not_hidden_special hload (by decide))).restarts.bind
      fun nextPC => (Instruction.restartable_execute hload
        (fun r hr => not_hidden_of_not_awaits (hoperands r hr)) _ tid).restarts.bind fun n => ?_
    exact (rel_advance hload n).mono (fun _ _ h => h) (fun _ _ _ h => h) fun _ _ _ h => h.elim
  have hread := (reading_readMem tid (s.registers PCReg) 4).restarts s t hst
  have hinstr : ∀ u : State, instruction tid u =
      (readMem tid (u.registers PCReg) 4 >>= fun raw => do
        let nextPC ← reg NextPCReg
        let n ← (decode raw).execute (nextPC + 4) tid
        advance n) u := fun _ => rfl
  unfold LoadDelayRule fetched at hrule
  rw [hinstr, hinstr, hpc, bind_apply, bind_apply]
  generalize readMem tid (s.registers PCReg) 4 s = x at hread hrule ⊢
  generalize readMem tid (s.registers PCReg) 4 t = y at hread ⊢
  cases hread with
  | crash => exact .crash
  | error h => exact .error h
  | @ok raw s' t' h => exact hrest raw (hrule _ rfl) s' t' h

/-- The two attempts end in the same way. -/
theorem oneInstruction_restarted {s t : State}
    (hst : Fresh (s.registers LoadReg) (s.registers LoadValueReg) s t)
    (hload : (s.registers LoadReg).toNat < NumGPRegs) (hrule : s.LoadDelayRule tid) :
    Option.Rel (fun x y => x.1 = y.1 ∧ x.2.SameButBadVAddr y.2)
      (s.oneInstruction tid) (t.oneInstruction tid) := by
  have hinstr := instruction_restarted hst hload hrule
  simp only [oneInstruction]
  generalize instruction tid s = x, instruction tid t = y at hinstr
  cases hinstr with
  | crash => exact .none
  | ok h => exact .some ⟨rfl, h⟩
  | @error trap s' t' h =>
      have hraise := rel_raiseException hload trap.badVAddr s' t' h
      simp only
      generalize raiseException trap.badVAddr s' = x, raiseException trap.badVAddr t' = y at hraise
      cases hraise with
      | crash => exact .none
      | ok h => exact .some ⟨rfl, h⟩
      | error h => exact h.elim

/-- Every instruction leaves register 0 zero and a general register as the target
of the delayed load, whether it raises or not. -/
theorem Valid.oneInstruction {s s' : State} {raised : Option Trap} (hs : s.Valid)
    (hrun : s.oneInstruction tid = some (raised, s')) : s'.Valid := by
  have htop : ∀ {α : Type} (p : Code α),
      Triple (fun _ => True) p (fun _ _ => True) (fun _ _ => True) := by
    intro α p u _ r u' _
    cases r <;> trivial
  have hvalid : Triple (fun _ => True) (instruction tid) (fun _ => Valid) (fun _ _ => True) :=
    (htop _).bind fun _ => (htop _).bind fun _ => (htop _).bind fun _ => (htop _).bind fun n =>
      (valid_advance n).mono (fun _ h => h) (fun _ _ h => h) fun _ _ _ => trivial
  cases raised with
  | some trap =>
      have htrapped := trapped_of_raise hs hrun
      exact ⟨htrapped.zero, by rw [htrapped.cleared.1]; decide⟩
  | none =>
      simp only [State.oneInstruction] at hrun
      split at hrun
      · cases hrun
      · rename_i hinstr
        cases hrun
        exact hvalid s trivial _ _ hinstr
      · split at hrun <;> cases hrun

/-- An exception is precise: at the call of the handler the delayed load has been
applied and cleared, and nothing else has changed.  It is restartable: with any
memory that the handler leaves, executing the instruction again ends as
executing it once from the original registers, up to `BadVAddrReg`, if the
instruction obeys the load delay rule. -/
theorem exceptions_restartable {s h : State} {tid : Nat} {trap : Trap} (hs : s.Valid)
    (hraise : s.oneInstruction tid = some (some trap, h)) :
    s.Trapped trap h ∧
      ∀ m : Memory, LoadDelayRule { s with memory := m } tid →
        Option.Rel (fun x y => x.1 = y.1 ∧ x.2.SameButBadVAddr y.2)
          (oneInstruction { s with memory := m } tid)
          (oneInstruction { h with memory := m } tid) := by
  have htrapped := trapped_of_raise hs hraise
  refine ⟨htrapped, fun m hrule => ?_⟩
  exact oneInstruction_restarted (htrapped.fresh hs m) hs.load hrule

/-- The bytes of a program that starts with `lw r2, 128(r0)`. -/
def loadCode : Bytes :=
  Bytes.store (fun _ => 0) 0 0x8C020080#32 4

/-- The program at its first instruction, with a load of 7 into register 3
delayed.  Its second page is not in memory. -/
def absentPage : State where
  registers r :=
    if r = NextPCReg then 4 else if r = LoadReg then 3 else if r = LoadValueReg then 7 else 0
  memory :=
    { (Memory.boot (fun _ => false) fun _ => ⟨2 * PageSize, loadCode⟩).install 1 0 0
        ⟨MemorySize, loadCode⟩ with
      space t := if t < 2 then some ⟨t, 2⟩ else none }

/-- The memory after the handler of the fault. -/
def presentPage : Option Memory :=
  absentPage.memory.reverseTableReplace Memory.twoThreads 1 128 0

theorem valid_absentPage : absentPage.Valid :=
  ⟨rfl, by decide⟩

/-- What an instruction of thread 1 raises, and a register after it. -/
def outcome (s : State) (r : Register) : Option (Option Trap × Word) :=
  (s.oneInstruction 1).map fun x => (x.1, x.2.registers r)

theorem oneInstruction_of_outcome {s : State} {raised : Option Trap} {r : Register} {v : Word}
    (h : s.outcome r = some (raised, v)) :
    ∃ s', s.oneInstruction 1 = some (raised, s') ∧ s'.registers r = v := by
  obtain ⟨⟨e, s'⟩, hrun, hx⟩ := Option.map_eq_some_iff.mp h
  cases hx
  exact ⟨s', hrun, rfl⟩

/-- The fault, the handler, one attempt with the page and the second attempt. -/
theorem absentPage_runs : ∃ h m s t,
    absentPage.oneInstruction 1 = some (some ⟨.pageFaultException, 128⟩, h) ∧
    presentPage = some m ∧ LoadDelayRule { absentPage with memory := m } 1 ∧
    oneInstruction { absentPage with memory := m } 1 = some (none, s) ∧
    oneInstruction { h with memory := m } 1 = some (none, t) ∧
    s.registers BadVAddrReg = 0 ∧ t.registers BadVAddrReg = 128 := by
  have hfault : absentPage.outcome BadVAddrReg =
      some (some ⟨.pageFaultException, 128⟩, 128) := by
    decide +kernel
  obtain ⟨h, hh, _⟩ := oneInstruction_of_outcome hfault
  have hruns : (presentPage.map fun m =>
      (decide (LoadDelayRule { absentPage with memory := m } 1),
        outcome { absentPage with memory := m } BadVAddrReg,
        (absentPage.oneInstruction 1).bind fun x =>
          outcome { x.2 with memory := m } BadVAddrReg)) =
      some (true, some (none, 0), some (none, 128)) := by
    decide +kernel
  obtain ⟨m, hm, hx⟩ := Option.map_eq_some_iff.mp hruns
  rw [hh] at hx
  simp only [Option.bind_some, Prod.mk.injEq, decide_eq_true_eq] at hx
  obtain ⟨s, hs, hs0⟩ := oneInstruction_of_outcome hx.2.1
  obtain ⟨t, ht, hbad⟩ := oneInstruction_of_outcome hx.2.2
  exact ⟨h, m, s, t, hh, hm, hx.1, hs, ht, hs0, hbad⟩

/-- The load faults after the delayed load was applied, the handler reads the page,
and the second attempt ends as one attempt with the page. -/
theorem exceptions_restartable_absentPage : ∃ h m s t,
    absentPage.oneInstruction 1 = some (some ⟨.pageFaultException, 128⟩, h) ∧
    absentPage.Trapped ⟨.pageFaultException, 128⟩ h ∧ presentPage = some m ∧
    oneInstruction { absentPage with memory := m } 1 = some (none, s) ∧
    oneInstruction { h with memory := m } 1 = some (none, t) ∧ s.SameButBadVAddr t := by
  obtain ⟨h, m, s, t, hh, hm, hrule, hs, ht, _, _⟩ := absentPage_runs
  obtain ⟨htrapped, hrestart⟩ := exceptions_restartable valid_absentPage hh
  have hsame := hrestart m hrule
  rw [hs, ht] at hsame
  cases hsame with
  | some hst => exact ⟨h, m, s, t, hh, htrapped, hm, hs, ht, hst.2⟩

/-- After the second attempt `BadVAddrReg` still holds the address of the fault;
one attempt with the page leaves the register as it was. -/
theorem badVAddr_kept : ∃ h m s t,
    absentPage.Valid ∧ absentPage.oneInstruction 1 = some (some ⟨.pageFaultException, 128⟩, h) ∧
    presentPage = some m ∧ LoadDelayRule { absentPage with memory := m } 1 ∧
    oneInstruction { absentPage with memory := m } 1 = some (none, s) ∧
    oneInstruction { h with memory := m } 1 = some (none, t) ∧
    s.registers BadVAddrReg = 0 ∧ t.registers BadVAddrReg = 128 := by
  obtain ⟨h, m, s, t, hruns⟩ := absentPage_runs
  exact ⟨h, m, s, t, valid_absentPage, hruns⟩

end State

end Nachos.Machine

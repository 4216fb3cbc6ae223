import Mathlib.Algebra.BigOperators.Group.Finset.Piecewise
import Mathlib.Data.Finset.Card

/-!
# Waiting in a loop

A thread that needs a unit of some resource tests a condition in a loop.  It
joins a queue when there is no unit, and it tests again after it has been
taken off the queue.  The one who adds a unit takes one thread off the queue,
but does not give it the unit: another thread may come first.

`NoLostWakeup units queue woken` is the property that makes the pattern
correct.  As long as a thread waits in the queue, every available unit has a
thread in `woken`, the threads that are off the queue and have not tested
again.  The lemmas are the moves of the pattern.

`card_filter_update` counts the threads in some set of phases when one thread
changes its phase.
-/

namespace Nachos.Lib

variable {T : Type*}

/-- While a thread waits, each available unit has a thread that will test for
it. -/
def NoLostWakeup (units : Int) (queue : List T) (woken : Finset T) : Prop :=
  queue ≠ [] → units ≤ woken.card

namespace NoLostWakeup

variable {units units' : Int} {queue queue' : List T} {woken woken' : Finset T}

/-- Without a unit nothing is lost. -/
theorem of_nonpos (h : units ≤ 0) : NoLostWakeup units queue woken := by
  intro _
  have := Int.natCast_nonneg woken.card
  omega

/-- With fewer units, more woken threads and no new waiter nothing is lost. -/
theorem mono (h : NoLostWakeup units queue woken) (hu : units' ≤ units)
    (hq : queue' ≠ [] → queue ≠ []) (hw : woken ⊆ woken') :
    NoLostWakeup units' queue' woken' := by
  intro hne
  have hcard := Finset.card_le_card hw
  have hle := h (hq hne)
  omega

/-- A thread takes a unit.  It may be one of those that were woken. -/
theorem take [DecidableEq T] {t : T} (h : NoLostWakeup units queue woken)
    (hw : woken.erase t ⊆ woken') : NoLostWakeup (units - 1) queue woken' := by
  intro hne
  have hcard := Finset.card_le_card hw
  have hpred := Finset.pred_card_le_card_erase (s := woken) (a := t)
  have hle := h hne
  omega

/-- A new unit, and the head of the queue is woken. -/
theorem give [DecidableEq T] {t : T} (h : NoLostWakeup units (t :: queue) woken)
    (ht : t ∉ woken) (hw : insert t woken ⊆ woken') :
    NoLostWakeup (units + 1) queue woken' := by
  intro _
  have hcard := Finset.card_le_card hw
  rw [Finset.card_insert_of_notMem ht] at hcard
  have hle := h (List.cons_ne_nil t queue)
  omega

end NoLostWakeup

/-- The number of threads whose phase is in `Q`, when thread `t` moves to
phase `b`. -/
theorem card_filter_update [DecidableEq T] {P : Type*} {s : Finset T} {t : T}
    (ht : t ∈ s) (f : T → P) (b : P) (Q : P → Prop) [DecidablePred Q] :
    (s.filter fun u => Q (Function.update f t b u)).card + (if Q (f t) then 1 else 0) =
      (s.filter fun u => Q (f u)).card + if Q b then 1 else 0 := by
  have hrest : ∑ u ∈ s.erase t, (if Q (Function.update f t b u) then 1 else 0) =
      ∑ u ∈ s.erase t, if Q (f u) then 1 else 0 := by
    apply Finset.sum_congr rfl
    intro u hu
    rw [Function.update_of_ne (Finset.ne_of_mem_erase hu)]
  rw [Finset.card_filter, Finset.card_filter, ← Finset.sum_erase_add _ _ ht,
    ← Finset.sum_erase_add _ (fun u => if Q (f u) then 1 else 0) ht, hrest,
    Function.update_self]
  omega

end Nachos.Lib

import Mathlib.Data.Int.ModEq
import Mathlib.Order.Bounds.Defs
import Mathlib.Tactic.Ring

/-!
# Slots on a rotating track

A track has `n` slots, and each of them is under the head for `R` ticks.  The time
`t` is at a border between two slots if `R` divides it, and then the slot that begins
is the one with the number `t / R` modulo `n`.

`roundUp` is the first border that is not before a time, and `firstBegin` the first
time from then on at which a given slot begins.
-/

namespace Nachos.Lib

variable {R n : Int}

/-- Slot `i` of `n` comes under the head at time `t`. -/
def Begins (R n i t : Int) : Prop := R ∣ t ∧ t / R ≡ i [ZMOD n]

/-- The first border that is not before `t`. -/
def roundUp (R t : Int) : Int := t + -t % R

/-- The first time, not before `t`, at which slot `i` begins. -/
def firstBegin (R n i t : Int) : Int := roundUp R t + (i - roundUp R t / R) % n * R

/-- A remainder is the least number of its class that is not negative. -/
theorem emod_le_of_modEq {a b : Int} (hn : 0 < n) (ha : 0 ≤ a) (h : a ≡ b [ZMOD n]) :
    b % n ≤ a := by
  have hmultiple : 0 ≤ n * (a / n) := Int.mul_nonneg hn.le (Int.ediv_nonneg ha hn.le)
  rw [← h.eq, Int.emod_def]
  omega

theorem isLeast_roundUp (hR : 0 < R) (t : Int) :
    IsLeast {u | t ≤ u ∧ R ∣ u} (roundUp R t) := by
  constructor
  · constructor
    · exact le_add_of_nonneg_right (Int.emod_nonneg _ hR.ne')
    · rw [roundUp, Int.emod_def]
      exact ⟨-(-t / R), by ring⟩
  · rintro u ⟨hle, hdvd⟩
    have hclass : u - t ≡ -t [ZMOD R] := by
      rw [sub_eq_neg_add]
      exact Int.modEq_iff_dvd.mpr (by rwa [sub_add_cancel_left, Int.dvd_neg])
    have hrest := emod_le_of_modEq hR (by omega) hclass
    rw [roundUp]
    omega

theorem isLeast_firstBegin (hR : 0 < R) (hn : 0 < n) (i t : Int) :
    IsLeast {u | t ≤ u ∧ Begins R n i u} (firstBegin R n i t) := by
  obtain ⟨⟨hle, a, ha⟩, hleast⟩ := isLeast_roundUp hR t
  have hturns : 0 ≤ (i - a) % n := Int.emod_nonneg _ hn.ne'
  have hfirst : firstBegin R n i t = R * (a + (i - a) % n) := by
    rw [firstBegin, ha, Int.mul_ediv_cancel_left _ hR.ne']
    ring
  rw [hfirst]
  constructor
  · refine ⟨?_, dvd_mul_right _ _, ?_⟩
    · calc t ≤ R * a := ha ▸ hle
        _ ≤ R * (a + (i - a) % n) := Int.mul_le_mul_of_nonneg_left (by omega) hR.le
    · rw [Int.mul_ediv_cancel_left _ hR.ne']
      have hclass := (Int.ModEq.refl a).add (Int.mod_modEq (i - a) n)
      rwa [add_sub_cancel] at hclass
  · -- a later border is a whole number of slots behind the first one
    rintro u ⟨hu, ⟨b, rfl⟩, hclass⟩
    rw [Int.mul_ediv_cancel_left _ hR.ne'] at hclass
    have hborder : R * a ≤ R * b := ha ▸ hleast ⟨hu, dvd_mul_right _ _⟩
    have hab : a ≤ b := Int.le_of_mul_le_mul_left hborder hR
    have hrest := emod_le_of_modEq hn (by omega) (hclass.sub_right a)
    exact Int.mul_le_mul_of_nonneg_left (by omega) hR.le

end Nachos.Lib

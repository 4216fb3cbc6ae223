import Mathlib.Logic.Function.Basic

/-!
# A finite map in a table of slots

A table has `n` slots.  A slot is free, which is `none`, or it has a key and a value.
`HoldsMap` says that the table holds a map: the bindings of the map are the entries
of the table, and no key is in two slots.

A new binding may go to any free slot, and the slot of a key is freed to remove the
key.
-/

namespace Nachos.Lib

open Function

variable {K V : Type*} {n i : Nat} {t t' : Nat → Option (K × V)} {m : K → Option V} {k : K} {v : V}

/-- The table `t` of `n` slots holds the map `m`. -/
structure HoldsMap (n : Nat) (t : Nat → Option (K × V)) (m : K → Option V) : Prop where
  bound : ∀ k v, m k = some v ↔ ∃ i < n, t i = some (k, v)
  distinct : ∀ i < n, ∀ j < n, ∀ k v w, t i = some (k, v) → t j = some (k, w) → i = j

namespace HoldsMap

theorem empty (h : ∀ i < n, t i = none) : HoldsMap n t fun _ => none where
  bound k v := by
    constructor
    · intro hbound
      cases hbound
    · rintro ⟨i, hi, hslot⟩
      rw [h i hi] at hslot
      cases hslot
  distinct i hi j _ k v w hslot _ := by
    rw [h i hi] at hslot
    cases hslot

/-- The slots behind the table do not matter. -/
theorem congr (h : HoldsMap n t m) (hsame : ∀ i < n, t' i = t i) : HoldsMap n t' m where
  bound k v := by
    rw [h.bound]
    constructor
    · rintro ⟨i, hi, hslot⟩
      exact ⟨i, hi, (hsame i hi).trans hslot⟩
    · rintro ⟨i, hi, hslot⟩
      exact ⟨i, hi, (hsame i hi).symm.trans hslot⟩
  distinct i hi j hj k v w hslot hslot' :=
    h.distinct i hi j hj k v w ((hsame i hi).symm.trans hslot) ((hsame j hj).symm.trans hslot')

/-- A key without a binding is in no slot. -/
theorem ne_of_unbound (h : HoldsMap n t m) (hk : m k = none) (hi : i < n) (v : V) :
    t i ≠ some (k, v) := by
  intro hslot
  rw [(h.bound k v).mpr ⟨i, hi, hslot⟩] at hk
  cases hk

variable [DecidableEq K]

/-- A new binding in a free slot. -/
theorem insert (h : HoldsMap n t m) (hk : m k = none) (hi : i < n) (hfree : t i = none) (v : V) :
    HoldsMap n (update t i (some (k, v))) (update m k (some v)) where
  bound k' v' := by
    by_cases hkey : k' = k
    · subst hkey
      rw [update_self]
      constructor
      · intro hv
        cases hv
        exact ⟨i, hi, update_self ..⟩
      · rintro ⟨j, hj, hslot⟩
        rw [update_apply] at hslot
        split at hslot
        · cases hslot
          rfl
        · exact absurd hslot (h.ne_of_unbound hk hj v')
    · rw [update_of_ne hkey, h.bound]
      constructor
      · rintro ⟨j, hj, hslot⟩
        have hne : j ≠ i := by
          rintro rfl
          rw [hfree] at hslot
          cases hslot
        exact ⟨j, hj, (update_of_ne hne ..).trans hslot⟩
      · rintro ⟨j, hj, hslot⟩
        rw [update_apply] at hslot
        split at hslot
        · cases hslot
          exact absurd rfl hkey
        · exact ⟨j, hj, hslot⟩
  distinct a ha b hb k' v' w hslot hslot' := by
    rw [update_apply] at hslot hslot'
    split at hslot <;> split at hslot'
    · rename_i ha' hb'
      rw [ha', hb']
    · cases hslot
      exact absurd hslot' (h.ne_of_unbound hk hb w)
    · cases hslot'
      exact absurd hslot (h.ne_of_unbound hk ha v')
    · exact h.distinct a ha b hb k' v' w hslot hslot'

/-- The slot of a key is freed. -/
theorem erase (h : HoldsMap n t m) (hi : i < n) (hslot : t i = some (k, v)) :
    HoldsMap n (update t i none) (update m k none) where
  bound k' v' := by
    by_cases hkey : k' = k
    · subst hkey
      rw [update_self]
      constructor
      · intro hv
        cases hv
      · rintro ⟨j, hj, hslot'⟩
        rw [update_apply] at hslot'
        split at hslot'
        · cases hslot'
        · rename_i hne
          exact absurd (h.distinct j hj i hi _ _ _ hslot' hslot) hne
    · rw [update_of_ne hkey, h.bound]
      constructor
      · rintro ⟨j, hj, hslot'⟩
        have hne : j ≠ i := by
          rintro rfl
          rw [hslot] at hslot'
          cases hslot'
          exact hkey rfl
        exact ⟨j, hj, (update_of_ne hne ..).trans hslot'⟩
      · rintro ⟨j, hj, hslot'⟩
        rw [update_apply] at hslot'
        split at hslot'
        · cases hslot'
        · exact ⟨j, hj, hslot'⟩
  distinct a ha b hb k' v' w hslot₁ hslot₂ := by
    rw [update_apply] at hslot₁ hslot₂
    split at hslot₁
    · cases hslot₁
    · split at hslot₂
      · cases hslot₂
      · exact h.distinct a ha b hb k' v' w hslot₁ hslot₂

end HoldsMap

end Nachos.Lib

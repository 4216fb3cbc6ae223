import Mathlib.Data.Finset.Card
import Mathlib.Logic.Function.Basic

/-!
# Who is at a place

In a system of agents each of them is at a place, and in one step one agent
moves.  `Sole` says that at most one agent is at the places of a set, and names
it.  `Census` says which agents are there.  The lemmas follow one move: inside
the set, into it or out of it.
-/

namespace Nachos.Lib

open Function

variable {T P : Type*} {f : P → Prop} {place : T → P} {t : T} {p : P}

/-- The agent that `holder` names, and no other, is at a place of `f`. -/
def Sole (f : P → Prop) (place : T → P) (holder : Option T) : Prop :=
  ∀ t, f (place t) ↔ holder = some t

/-- The agents at a place of `f` are those in `s`. -/
def Census (f : P → Prop) (place : T → P) (s : Finset T) : Prop :=
  ∀ t, t ∈ s ↔ f (place t)

section Sole

variable {holder : Option T}

theorem Sole.holder_eq (h : Sole f place holder) (ht : f (place t)) : holder = some t :=
  (h t).mp ht

theorem Sole.unique (h : Sole f place holder) {u : T} (ht : f (place t)) (hu : f (place u)) :
    t = u :=
  Option.some.inj ((h.holder_eq ht).symm.trans (h.holder_eq hu))

variable [DecidableEq T]

theorem Sole.stay (h : Sole f place holder) (hp : f p ↔ f (place t)) :
    Sole f (update place t p) holder := by
  intro u
  by_cases hu : u = t
  · subst hu
    rw [update_self, hp]
    exact h u
  · rw [update_of_ne hu]
    exact h u

theorem Sole.enter (h : Sole f place none) (hp : f p) : Sole f (update place t p) (some t) := by
  intro u
  by_cases hu : u = t
  · subst hu
    rw [update_self]
    exact ⟨fun _ => rfl, fun _ => hp⟩
  · rw [update_of_ne hu, h u]
    constructor
    · intro hnone
      cases hnone
    · intro hsome
      exact absurd (Option.some.inj hsome).symm hu

theorem Sole.leave (h : Sole f place (some t)) (hp : ¬f p) : Sole f (update place t p) none := by
  intro u
  by_cases hu : u = t
  · subst hu
    rw [update_self]
    exact ⟨fun hu => absurd hu hp, fun hnone => by cases hnone⟩
  · rw [update_of_ne hu, h u]
    constructor
    · intro hsome
      exact absurd (Option.some.inj hsome).symm hu
    · intro hnone
      cases hnone

end Sole

section Census

variable [DecidableEq T] {s : Finset T}

theorem Census.stay (h : Census f place s) (hp : f p ↔ f (place t)) :
    Census f (update place t p) s := by
  intro u
  by_cases hu : u = t
  · subst hu
    rw [update_self, hp]
    exact h u
  · rw [update_of_ne hu]
    exact h u

theorem Census.enter (h : Census f place s) (hp : f p) :
    Census f (update place t p) (insert t s) := by
  intro u
  by_cases hu : u = t
  · subst hu
    rw [update_self]
    exact ⟨fun _ => hp, fun _ => Finset.mem_insert_self u s⟩
  · rw [update_of_ne hu, Finset.mem_insert, h u]
    exact ⟨fun hmem => hmem.resolve_left hu, Or.inr⟩

theorem Census.leave (h : Census f place s) (hp : ¬f p) :
    Census f (update place t p) (s.erase t) := by
  intro u
  by_cases hu : u = t
  · subst hu
    rw [update_self]
    exact ⟨fun hmem => absurd hmem (Finset.notMem_erase u s), fun hu => absurd hu hp⟩
  · rw [update_of_ne hu, Finset.mem_erase, h u]
    exact ⟨fun hmem => hmem.2, fun hmem => ⟨hu, hmem⟩⟩

theorem Census.card_enter (h : Census f place s) (ht : ¬f (place t)) :
    (insert t s).card = s.card + 1 :=
  Finset.card_insert_of_notMem fun hmem => ht ((h t).mp hmem)

theorem Census.card_leave (h : Census f place s) (ht : f (place t)) :
    (s.erase t).card + 1 = s.card :=
  Finset.card_erase_add_one ((h t).mpr ht)

end Census

end Nachos.Lib

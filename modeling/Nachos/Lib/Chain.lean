import Mathlib.Data.List.Nodup
import Mathlib.Logic.Function.Basic

/-!
# Linked cells

A cell has a value and the address of the next cell, which may be the null pointer,
`none`.  `Cells` are the cells that exist, by their addresses.

`Chain cells start xs stop` says what one meets on the way from `start` along `next`:
the cells with the addresses and values `xs`, one after another, and then the pointer
`stop`.  Chains can be cut and joined, and they do not depend on other cells.
`Chain.insertAfter` is the change of two pointers that puts a new cell behind another
one.
-/

namespace Nachos.Lib

open Function

structure Cell (V : Type*) where
  value : V
  next : Option Nat

/-- The cells by address.  `none` is an address without a cell. -/
abbrev Cells (V : Type*) := Nat → Option (Cell V)

variable {V : Type*} {cells cells' : Cells V} {start mid stop : Option Nat}
  {xs ys : List (Nat × V)} {p q : Nat} {v w : V}

/-- The way from `start` to `stop`. -/
def Chain (cells : Cells V) : Option Nat → List (Nat × V) → Option Nat → Prop
  | start, [], stop => start = stop
  | start, (p, v) :: xs, stop =>
      start = some p ∧ ∃ next, cells p = some ⟨v, next⟩ ∧ Chain cells next xs stop

theorem chain_append :
    Chain cells start (xs ++ ys) stop ↔
      ∃ mid, Chain cells start xs mid ∧ Chain cells mid ys stop := by
  induction xs generalizing start with
  | nil =>
    constructor
    · intro h
      exact ⟨start, rfl, h⟩
    · rintro ⟨mid, rfl, h⟩
      exact h
  | cons x xs ih =>
    constructor
    · rintro ⟨hstart, next, hcell, hrest⟩
      obtain ⟨mid, hxs, hys⟩ := ih.mp hrest
      exact ⟨mid, ⟨hstart, next, hcell, hxs⟩, hys⟩
    · rintro ⟨mid, ⟨hstart, next, hcell, hxs⟩, hys⟩
      exact ⟨hstart, next, hcell, ih.mpr ⟨mid, hxs, hys⟩⟩

namespace Chain

/-- The cells of a chain exist. -/
theorem cell_of_mem (h : Chain cells start xs stop) (hmem : (p, v) ∈ xs) :
    ∃ next, cells p = some ⟨v, next⟩ := by
  induction xs generalizing start with
  | nil => cases hmem
  | cons x xs ih =>
    obtain ⟨_, next, hcell, hrest⟩ := h
    rcases List.mem_cons.mp hmem with rfl | hmem
    · exact ⟨next, hcell⟩
    · exact ih hrest hmem

/-- An address without a cell is not in a chain. -/
theorem fresh (h : Chain cells start xs stop) (hp : cells p = none) : p ∉ xs.map Prod.fst := by
  intro hmem
  obtain ⟨⟨_, v⟩, hx, rfl⟩ := List.mem_map.mp hmem
  obtain ⟨next, hcell⟩ := h.cell_of_mem hx
  rw [hp] at hcell
  cases hcell

/-- Other cells do not matter. -/
theorem congr (h : Chain cells start xs stop)
    (hsame : ∀ p ∈ xs.map Prod.fst, cells' p = cells p) : Chain cells' start xs stop := by
  induction xs generalizing start with
  | nil => exact h
  | cons x xs ih =>
    obtain ⟨hstart, next, hcell, hrest⟩ := h
    have hx := hsame x.1 List.mem_cons_self
    exact ⟨hstart, next, hx.trans hcell,
      ih hrest fun p hp => hsame p (List.mem_cons_of_mem x.1 hp)⟩

theorem update (h : Chain cells start xs stop) (hp : p ∉ xs.map Prod.fst) (c : Option (Cell V)) :
    Chain (Function.update cells p c) start xs stop := by
  refine h.congr fun a ha => update_of_ne ?_ ..
  rintro rfl
  exact hp ha

/-- A new cell `p` behind `q`. -/
theorem insertAfter (h : Chain cells start (xs ++ [(q, w)]) mid) (h' : Chain cells mid ys stop)
    (hq : q ∉ xs.map Prod.fst) (hq' : q ∉ ys.map Prod.fst) (hp : cells p = none) :
    Chain (Function.update (Function.update cells p (some ⟨v, mid⟩)) q (some ⟨w, some p⟩)) start
      (xs ++ (q, w) :: (p, v) :: ys) stop := by
  have hpq : p ≠ q := by
    rintro rfl
    exact h.fresh hp (by simp)
  obtain ⟨first, hxs, hfirst, _⟩ := chain_append.mp h
  subst hfirst
  have hpxs := hxs.fresh hp
  refine chain_append.mpr
    ⟨some q, (hxs.update hpxs _).update hq _, rfl, some p, ?_, rfl, mid, ?_, ?_⟩
  · rw [update_self]
  · rw [update_of_ne hpq, update_self]
  · exact (h'.update (h'.fresh hp) _).update hq' _

end Chain

end Nachos.Lib

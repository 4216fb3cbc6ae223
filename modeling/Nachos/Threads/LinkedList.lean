import Nachos.Lib.Chain
import Nachos.Lib.Run
import Nachos.Threads.List

/-!
# The pointers of `threads/list.cc`

`NachosList` is a list as the sequence of its elements.  Here is the list as the code
has it: the pointers `first` and `last`, and the elements in memory with their `next`
pointers.  A pointer to no element is not followed; the functions are `none` then.
`new` may return any address without an element, also one that has been deleted
before, and so the address is an argument.

`Represents` is the representation: the chain of elements from `first`, with `last` at
its end.  Each function on the pointers does what the function of the same name does
on the sequence.  The elements of other lists, `others`, are in the same memory, and
nothing happens to them.

In a run every item gets the number of the insertion that put it in the list.  On a
list that is only filled by `SortedInsert` the items are sorted by their keys, and by
these numbers where the keys are equal.
-/

namespace Nachos.Threads

open Function Lib

variable {α : Type*}

/-- `class List`, and the elements in memory. -/
structure LinkedList (α : Type*) where
  first : Option Nat
  last : Option Nat
  heap : Cells (ListElement α)

namespace LinkedList

/-! ## The functions -/

/-- `List::List`. -/
def new (heap : Cells (ListElement α)) : LinkedList α where
  first := none
  last := none
  heap := heap

/-- `new ListElement(item, sortKey)` at the address `element`. -/
def newElement (heap : Cells (ListElement α)) (element : Nat) (item : α) (sortKey : Int) :
    Option (Cells (ListElement α)) :=
  match heap element with
  | none => some (update heap element (some ⟨⟨item, sortKey⟩, none⟩))
  | some _ => none

/-- `ptr->next = next`. -/
def setNext (heap : Cells (ListElement α)) (ptr : Nat) (next : Option Nat) :
    Option (Cells (ListElement α)) :=
  (heap ptr).map fun cell => update heap ptr (some { cell with next := next })

/-- `List::IsEmpty`. -/
def isEmpty (l : LinkedList α) : Bool := l.first.isNone

/-- `last->next = element; last = element;` -/
def linkLast (l : LinkedList α) (element : Nat) : Option (LinkedList α) :=
  l.last.bind fun last =>
    (setNext l.heap last (some element)).map fun heap =>
      { l with last := some element, heap := heap }

/-- `element->next = first; first = element;` -/
def linkFirst (l : LinkedList α) (element : Nat) : Option (LinkedList α) :=
  (setNext l.heap element l.first).map fun heap =>
    { l with first := some element, heap := heap }

/-- `List::Append`. -/
def append (l : LinkedList α) (element : Nat) (item : α) : Option (LinkedList α) := do
  let heap ← newElement l.heap element item 0
  if l.isEmpty then some ⟨some element, some element, heap⟩
  else linkLast { l with heap := heap } element

/-- `List::Prepend`. -/
def prepend (l : LinkedList α) (element : Nat) (item : α) : Option (LinkedList α) := do
  let heap ← newElement l.heap element item 0
  if l.isEmpty then some ⟨some element, some element, heap⟩
  else linkFirst { l with heap := heap } element

/-- The loop of `SortedInsert` at `ptr`.  The inner `none` is its end. -/
def insertLoop (heap : Cells (ListElement α)) (element : Nat) (sortKey : Int) :
    Nat → Nat → Option (Option (Cells (ListElement α)))
  | 0, _ => none
  | fuel + 1, ptr => do
      let cell ← heap ptr
      match cell.next with
      | none => some none
      | some next => do
          let nextCell ← heap next
          if sortKey < nextCell.value.key then do
            let heap ← setNext heap element (some next)
            let heap ← setNext heap ptr (some element)
            some (some heap)
          else insertLoop heap element sortKey fuel next

/-- `List::SortedInsert`. -/
def sortedInsert (l : LinkedList α) (fuel element : Nat) (item : α) (sortKey : Int) :
    Option (LinkedList α) := do
  let heap ← newElement l.heap element item sortKey
  match l.first with
  | none => some ⟨some element, some element, heap⟩
  | some first => do
      let cell ← heap first
      if sortKey < cell.value.key then linkFirst { l with heap := heap } element
      else do
        let inserted ← insertLoop heap element sortKey fuel first
        match inserted with
        | some heap => some { l with heap := heap }
        | none => linkLast { l with heap := heap } element

/-- `List::SortedRemove`: the item with its key, or `NULL`. -/
def sortedRemove (l : LinkedList α) : Option (Option (α × Int) × LinkedList α) :=
  match l.first with
  | none => some (none, l)
  | some element => do
      let cell ← l.heap element
      let l := if l.first = l.last then { l with first := none, last := none }
        else { l with first := cell.next }
      some (some (cell.value.item, cell.value.key), { l with heap := update l.heap element none })

/-- `List::Remove`. -/
def remove (l : LinkedList α) : Option (Option α × LinkedList α) :=
  l.sortedRemove.map fun r => (r.1.map Prod.fst, r.2)

/-! ## The representation -/

/-- The elements of the list, with their addresses, are `cells`.  The other elements
in memory are `others`. -/
structure Represents (others : Cells (ListElement α)) (l : LinkedList α)
    (cells : List (Nat × ListElement α)) : Prop where
  chain : Chain l.heap l.first cells none
  last : l.last = cells.getLast?.map Prod.fst
  nodup : (cells.map Prod.fst).Nodup
  own : ∀ p ∈ cells.map Prod.fst, others p = none
  frame : ∀ p, p ∉ cells.map Prod.fst → l.heap p = others p

/-- The list holds this sequence of elements. -/
def Holds (others : Cells (ListElement α)) (l : LinkedList α) (xs : NachosList α) : Prop :=
  ∃ cells, Represents others l cells ∧ cells.map Prod.snd = xs

variable {others : Cells (ListElement α)} {l l' : LinkedList α} {cells : List (Nat × ListElement α)}
  {p : Nat} {item : α} {key : Int}

theorem newElement_of_fresh {heap : Cells (ListElement α)} (hp : heap p = none) (item : α)
    (key : Int) : newElement heap p item key = some (update heap p (some ⟨⟨item, key⟩, none⟩)) := by
  rw [newElement, hp]

theorem setNext_of_cell {heap : Cells (ListElement α)} {v : ListElement α} {next : Option Nat}
    (hp : heap p = some ⟨v, next⟩) (next' : Option Nat) :
    setNext heap p next' = some (update heap p (some ⟨v, next'⟩)) := by
  rw [setNext, hp, Option.map_some]

section Loop

variable {heap : Cells (ListElement α)} {ptr next : Nat} {u w : ListElement α} {next' : Option Nat}

/-- The loop at the last element. -/
theorem insertLoop_last (hptr : heap ptr = some ⟨w, none⟩) (element fuel : Nat) (key : Int) :
    insertLoop heap element key (fuel + 1) ptr = some none := by
  rw [insertLoop, hptr]
  rfl

/-- The loop at another element. -/
theorem insertLoop_next (hptr : heap ptr = some ⟨w, some next⟩)
    (hnext : heap next = some ⟨u, next'⟩) (element fuel : Nat) (key : Int) :
    insertLoop heap element key (fuel + 1) ptr =
      if key < u.key then do
        let heap ← setNext heap element (some next)
        let heap ← setNext heap ptr (some element)
        some (some heap)
      else insertLoop heap element key fuel next := by
  rw [insertLoop, hptr, Option.bind_eq_bind, Option.bind_some]
  show (heap next).bind _ = _
  rw [hnext, Option.bind_some]

/-- More fuel does not change what the loop does. -/
theorem insertLoop_mono {element fuel fuel' : Nat} {r : Option (Cells (ListElement α))}
    (h : insertLoop heap element key fuel ptr = some r) (hle : fuel ≤ fuel') :
    insertLoop heap element key fuel' ptr = some r := by
  induction fuel generalizing ptr fuel' with
  | zero => cases h
  | succ fuel ih =>
    obtain ⟨fuel', rfl⟩ := Nat.exists_eq_succ_of_ne_zero (Nat.ne_zero_of_lt hle)
    cases hptr : heap ptr with
    | none =>
      rw [insertLoop, hptr] at h
      cases h
    | some cell =>
      obtain ⟨w, next⟩ := cell
      cases next with
      | none =>
        rw [insertLoop_last hptr] at h ⊢
        exact h
      | some next =>
        cases hnext : heap next with
        | none =>
          rw [insertLoop, hptr] at h
          change (heap next).bind _ = _ at h
          rw [hnext] at h
          cases h
        | some cell =>
          rw [insertLoop_next hptr hnext] at h ⊢
          by_cases hlt : key < cell.value.key
          · rw [if_pos hlt] at h ⊢
            exact h
          · rw [if_neg hlt] at h ⊢
            exact ih h (Nat.le_of_succ_le_succ hle)

end Loop

/-- More fuel does not change what `SortedInsert` does. -/
theorem sortedInsert_mono {fuel fuel' : Nat} (h : l.sortedInsert fuel p item key = some l')
    (hle : fuel ≤ fuel') : l.sortedInsert fuel' p item key = some l' := by
  obtain ⟨first, last, heap⟩ := l
  rw [sortedInsert] at h ⊢
  obtain ⟨heap', hnew, h⟩ := Option.bind_eq_some_iff.mp h
  rw [hnew, Option.bind_eq_bind, Option.bind_some]
  cases first with
  | none => exact h
  | some first =>
    obtain ⟨cell, hcell, h⟩ := Option.bind_eq_some_iff.mp h
    change (heap' first).bind _ = _
    rw [hcell, Option.bind_some]
    by_cases hlt : key < cell.value.key
    · rw [if_pos hlt] at h ⊢
      exact h
    · rw [if_neg hlt] at h ⊢
      obtain ⟨r, hloop, h⟩ := Option.bind_eq_some_iff.mp h
      rw [insertLoop_mono hloop hle]
      exact h

theorem fresh_of_newElement {heap heap' : Cells (ListElement α)}
    (h : newElement heap p item key = some heap') : heap p = none := by
  rw [newElement] at h
  split at h
  · assumption
  · cases h

namespace Represents

theorem new (heap : Cells (ListElement α)) : Represents heap (.new heap) [] where
  chain := rfl
  last := rfl
  nodup := List.nodup_nil
  own _ hp := absurd hp List.not_mem_nil
  frame _ _ := rfl

theorem first_eq_none (h : Represents others l cells) : l.first = none ↔ cells = [] := by
  cases cells with
  | nil => exact ⟨fun _ => rfl, fun _ => h.chain⟩
  | cons x cells =>
    obtain ⟨hfirst, _⟩ := h.chain
    constructor
    · intro hnone
      rw [hfirst] at hnone
      cases hnone
    · intro hnil
      cases hnil

/-- The memory after an insertion.  `xs ++ ys` are the elements before it. -/
theorem insert (xs ys : List (Nat × ListElement α)) {v : ListElement α}
    (h : Represents others l (xs ++ ys)) (hp : l.heap p = none)
    (hchain : Chain l'.heap l'.first (xs ++ (p, v) :: ys) none)
    (hlast : l'.last = (xs ++ (p, v) :: ys).getLast?.map Prod.fst)
    (hsame : ∀ a, a ∉ (xs ++ ys).map Prod.fst → a ≠ p → l'.heap a = l.heap a) :
    Represents others l' (xs ++ (p, v) :: ys) := by
  have hfresh := h.chain.fresh hp
  have hperm : ((xs ++ (p, v) :: ys).map Prod.fst).Perm (p :: (xs ++ ys).map Prod.fst) :=
    List.perm_middle.map Prod.fst
  refine ⟨hchain, hlast, ?_, ?_, ?_⟩
  · exact hperm.nodup_iff.mpr (List.nodup_cons.mpr ⟨hfresh, h.nodup⟩)
  · intro a ha
    rcases List.mem_cons.mp (hperm.mem_iff.mp ha) with rfl | ha
    · rw [← h.frame a hfresh, hp]
    · exact h.own a ha
  · intro a ha
    obtain ⟨hap, hold⟩ := not_or.mp fun hmem => ha (hperm.mem_iff.mpr (List.mem_cons.mpr hmem))
    rw [hsame a hold hap, h.frame a hold]

/-- The first element of an empty list. -/
theorem single (h : Represents others l []) (hp : l.heap p = none) (v : ListElement α) :
    Represents others ⟨some p, some p, update l.heap p (some ⟨v, none⟩)⟩ [(p, v)] := by
  refine insert [] [] h hp ?_ rfl ?_
  · exact ⟨rfl, none, update_self .., rfl⟩
  · intro a _ ha
    exact update_of_ne ha ..

/-- The element `p` has been created and is put behind `q`. -/
theorem insertAfter {xs ys : List (Nat × ListElement α)} {q : Nat} {v w : ListElement α}
    {mid : Option Nat} (h : Represents others l (xs ++ (q, w) :: ys)) (hp : l.heap p = none)
    (hmid : Chain l.heap mid ys none) (hq : l.heap q = some ⟨w, mid⟩)
    (hlast : l'.last = ((p, v) :: ys).getLast?.map Prod.fst) (hfirst : l'.first = l.first)
    (hheap : l'.heap = update (update l.heap p (some ⟨v, mid⟩)) q (some ⟨w, some p⟩)) :
    Represents others l' (xs ++ (q, w) :: (p, v) :: ys) := by
  have hcut : xs ++ (q, w) :: ys = (xs ++ [(q, w)]) ++ ys := by simp
  have hcut' : xs ++ (q, w) :: (p, v) :: ys = (xs ++ [(q, w)]) ++ (p, v) :: ys := by simp
  obtain ⟨start, hxs, hstart, next, hcell, _⟩ := chain_append.mp h.chain
  have hnext : next = mid := by
    rw [hq] at hcell
    cases hcell
    rfl
  subst hnext
  have hnodup := h.nodup
  rw [List.map_append, List.map_cons, List.nodup_middle, List.nodup_cons, ← List.map_append,
    List.map_append, List.mem_append, not_or] at hnodup
  rw [hcut] at h
  rw [hcut']
  refine insert _ _ h hp ?_ ?_ ?_
  · rw [← hcut', hheap, hfirst]
    refine Chain.insertAfter ?_ hmid hnodup.1.1 hnodup.1.2 hp
    exact chain_append.mpr ⟨start, hxs, hstart, next, hcell, rfl⟩
  · rw [hlast, List.getLast?_append, List.getLast?_cons, Option.some_or]
  · intro a hout hap
    have haq : a ≠ q := by
      rintro rfl
      exact hout (by simp)
    rw [hheap, update_of_ne haq, update_of_ne hap]

variable {w : ListElement α}

/-- The last element. -/
theorem last_cell {xs : List (Nat × ListElement α)} {q : Nat}
    (h : Represents others l (xs ++ [(q, w)])) :
    l.last = some q ∧ l.heap q = some ⟨w, none⟩ := by
  obtain ⟨_, _, _, next, hcell, hnext⟩ := chain_append.mp h.chain
  cases hnext
  refine ⟨?_, hcell⟩
  rw [h.last, List.getLast?_append]
  rfl

/-- `linkLast`, for a list that is not empty. -/
theorem linkLast (h : Represents others l cells) (hne : cells ≠ []) (hp : l.heap p = none)
    (v : ListElement α) :
    ∃ l', LinkedList.linkLast { l with heap := update l.heap p (some ⟨v, none⟩) } p = some l' ∧
      Represents others l' (cells ++ [(p, v)]) := by
  obtain ⟨xs, ⟨q, w⟩, rfl⟩ := List.eq_nil_or_concat' cells |>.resolve_left hne
  obtain ⟨hlast, hq⟩ := h.last_cell
  have hqp : q ≠ p := by
    rintro rfl
    rw [hp] at hq
    cases hq
  have hq' : update l.heap p (some ⟨v, none⟩) q = some ⟨w, none⟩ :=
    (update_of_ne hqp ..).trans hq
  refine ⟨⟨l.first, some p, update (update l.heap p (some ⟨v, none⟩)) q (some ⟨w, some p⟩)⟩,
    ?_, ?_⟩
  · rw [LinkedList.linkLast, hlast, Option.bind_some, setNext_of_cell hq', Option.map_some]
  · rw [List.append_assoc]
    exact insertAfter h hp rfl hq rfl rfl rfl

/-- `linkFirst`, for a list that is not empty. -/
theorem linkFirst (h : Represents others l cells) (hne : cells ≠ []) (hp : l.heap p = none)
    (v : ListElement α) :
    ∃ l', LinkedList.linkFirst { l with heap := update l.heap p (some ⟨v, none⟩) } p = some l' ∧
      Represents others l' ((p, v) :: cells) := by
  refine ⟨⟨some p, l.last, update l.heap p (some ⟨v, l.first⟩)⟩, ?_, ?_⟩
  · rw [LinkedList.linkFirst, setNext_of_cell (update_self ..), update_idem, Option.map_some]
  · refine insert [] cells h hp ?_ ?_ ?_
    · exact ⟨rfl, l.first, update_self .., h.chain.update (h.chain.fresh hp) _⟩
    · rw [h.last, List.nil_append, List.getLast?_cons_of_ne_nil hne]
    · intro a _ hap
      exact update_of_ne hap ..

/-! ## `Append` and `Prepend` -/

theorem isEmpty_eq (h : Represents others l cells) : l.isEmpty = cells.isEmpty := by
  rw [isEmpty]
  cases cells with
  | nil =>
    rw [h.first_eq_none.mpr rfl]
    rfl
  | cons x cells =>
    obtain ⟨hfirst, _⟩ := h.chain
    rw [hfirst]
    rfl

theorem append (h : Represents others l cells) (hp : l.heap p = none) (item : α) :
    ∃ l', l.append p item = some l' ∧ Represents others l' (cells ++ [(p, ⟨item, 0⟩)]) := by
  rw [LinkedList.append, newElement_of_fresh hp, Option.bind_eq_bind, Option.bind_some,
    h.isEmpty_eq]
  cases cells with
  | nil => exact ⟨_, rfl, h.single hp _⟩
  | cons x cells => exact h.linkLast (List.cons_ne_nil _ _) hp _

theorem prepend (h : Represents others l cells) (hp : l.heap p = none) (item : α) :
    ∃ l', l.prepend p item = some l' ∧ Represents others l' ((p, ⟨item, 0⟩) :: cells) := by
  rw [LinkedList.prepend, newElement_of_fresh hp, Option.bind_eq_bind, Option.bind_some,
    h.isEmpty_eq]
  cases cells with
  | nil => exact ⟨_, rfl, h.single hp _⟩
  | cons x cells => exact h.linkFirst (List.cons_ne_nil _ _) hp _

/-! ## `SortedInsert` -/

/-- The memory while the loop is at `q`: the new element `p` is there and is not
linked. -/
theorem loop_cells (xs : List (Nat × ListElement α)) {ys : List (Nat × ListElement α)} {q : Nat}
    (h : Represents others l (xs ++ (q, w) :: ys)) (hp : l.heap p = none)
    (c : Option (Cell (ListElement α))) :
    ∃ next, q ≠ p ∧ l.heap q = some ⟨w, next⟩ ∧ update l.heap p c q = some ⟨w, next⟩ ∧
      Chain l.heap next ys none := by
  obtain ⟨_, _, _, next, hcell, hys⟩ := chain_append.mp h.chain
  have hqp : q ≠ p := by
    rintro rfl
    rw [hp] at hcell
    cases hcell
  exact ⟨next, hqp, hcell, (update_of_ne hqp ..).trans hcell, hys⟩

/-- The loop links the new element before the first one with a greater key, or it
comes to the end. -/
theorem insertLoop (xs : List (Nat × ListElement α)) {ys : List (Nat × ListElement α)} {q : Nat}
    (h : Represents others l (xs ++ (q, w) :: ys)) (hp : l.heap p = none)
    (v : ListElement α) {fuel : Nat} (hfuel : ys.length < fuel) :
    (LinkedList.insertLoop (update l.heap p (some ⟨v, none⟩)) p v.key fuel q = some none ∧
        ys.orderedInsert (fun a b => a.2.key < b.2.key) (p, v) = ys ++ [(p, v)]) ∨
      ∃ heap', LinkedList.insertLoop (update l.heap p (some ⟨v, none⟩)) p v.key fuel q =
          some (some heap') ∧
        Represents others { l with heap := heap' }
          (xs ++ (q, w) :: ys.orderedInsert (fun a b => a.2.key < b.2.key) (p, v)) := by
  induction ys generalizing xs q w fuel with
  | nil =>
    obtain ⟨n, rfl⟩ := Nat.exists_eq_succ_of_ne_zero (Nat.ne_zero_of_lt hfuel)
    obtain ⟨next, _, _, hcell, hnext⟩ := h.loop_cells xs hp (some ⟨v, none⟩)
    cases hnext
    exact Or.inl ⟨insertLoop_last hcell p n v.key, rfl⟩
  | cons y ys ih =>
    obtain ⟨r, u⟩ := y
    obtain ⟨n, rfl⟩ := Nat.exists_eq_succ_of_ne_zero (Nat.ne_zero_of_lt hfuel)
    obtain ⟨next, hqp, hq, hcell, hchain⟩ := h.loop_cells xs hp (some ⟨v, none⟩)
    obtain rfl : next = some r := hchain.1
    have hcut : xs ++ (q, w) :: (r, u) :: ys = (xs ++ [(q, w)]) ++ (r, u) :: ys := by simp
    obtain ⟨_, _, _, hcell', _⟩ := loop_cells _ (hcut ▸ h) hp (some ⟨v, none⟩)
    rw [insertLoop_next hcell hcell', List.orderedInsert_cons]
    by_cases hlt : v.key < u.key
    · right
      have hq' : update l.heap p (some ⟨v, some r⟩) q = some ⟨w, some r⟩ :=
        (update_of_ne hqp ..).trans hq
      refine ⟨update (update l.heap p (some ⟨v, some r⟩)) q (some ⟨w, some p⟩), ?_, ?_⟩
      · rw [if_pos hlt, setNext_of_cell (update_self ..), update_idem, Option.bind_eq_bind,
          Option.bind_some, setNext_of_cell hq']
        rfl
      · rw [if_pos hlt]
        refine insertAfter h hp hchain hq ?_ rfl rfl
        rw [h.last, List.getLast?_append, List.getLast?_cons_cons, List.getLast?_cons_cons,
          List.getLast?_cons, Option.some_or]
    · rw [if_neg hlt, if_neg hlt]
      rcases ih _ (hcut ▸ h) (Nat.lt_of_succ_lt_succ hfuel) with ⟨hend, heq⟩ | ⟨heap', hin, hrep⟩
      · exact Or.inl ⟨hend, congrArg _ heq⟩
      · right
        refine ⟨heap', hin, ?_⟩
        rwa [List.append_assoc] at hrep

theorem sortedInsert (h : Represents others l cells) (hp : l.heap p = none) (item : α) (key : Int)
    {fuel : Nat} (hfuel : cells.length ≤ fuel) :
    ∃ l', l.sortedInsert fuel p item key = some l' ∧
      Represents others l'
        (cells.orderedInsert (fun a b => a.2.key < b.2.key) (p, ⟨item, key⟩)) := by
  obtain ⟨first, last, heap⟩ := l
  rw [LinkedList.sortedInsert, newElement_of_fresh hp, Option.bind_eq_bind, Option.bind_some]
  cases cells with
  | nil =>
    obtain rfl : first = none := h.chain
    exact ⟨_, rfl, h.single hp _⟩
  | cons x cells =>
    obtain ⟨q, w⟩ := x
    obtain rfl : first = some q := h.chain.1
    obtain ⟨_, _, _, hcell, _⟩ := loop_cells [] h hp (some ⟨⟨item, key⟩, none⟩)
    show ∃ l', (update heap p _ q).bind _ = some l' ∧ _
    rw [hcell, Option.bind_some, List.orderedInsert_cons]
    by_cases hlt : key < w.key
    · rw [if_pos hlt, if_pos hlt]
      exact h.linkFirst (List.cons_ne_nil _ _) hp _
    · rw [if_neg hlt, if_neg hlt]
      rcases insertLoop [] h hp ⟨item, key⟩ hfuel with ⟨hend, heq⟩ | ⟨heap', hin, hrep⟩
      · rw [hend, heq]
        exact h.linkLast (List.cons_ne_nil _ _) hp _
      · rw [hin]
        exact ⟨_, rfl, hrep⟩

/-! ## `SortedRemove` -/

theorem sortedRemove_nil (h : Represents others l []) : l.sortedRemove = some (none, l) := by
  rw [LinkedList.sortedRemove, h.first_eq_none.mpr rfl]

theorem sortedRemove_cons {v : ListElement α} (h : Represents others l ((p, v) :: cells)) :
    ∃ l', l.sortedRemove = some (some (v.item, v.key), l') ∧ Represents others l' cells := by
  obtain ⟨first, last, heap⟩ := l
  obtain ⟨rfl, next, hcell, hchain⟩ := h.chain
  have hnodup := h.nodup
  rw [List.map_cons, List.nodup_cons] at hnodup
  have hcell' : heap p = some ⟨v, next⟩ := hcell
  -- `first` and `last` are the same exactly if there is one element
  have hlinks : (if some p = last then ⟨none, none, heap⟩ else ⟨next, last, heap⟩ : LinkedList α) =
      ⟨next, cells.getLast?.map Prod.fst, heap⟩ := by
    have hlast : last = ((p, v) :: cells).getLast?.map Prod.fst := h.last
    cases cells with
    | nil =>
      cases hchain
      have hone : some p = last := hlast.symm
      rw [if_pos hone]
      rfl
    | cons y ys =>
      rw [List.getLast?_cons_cons] at hlast
      have hne : some p ≠ last := by
        intro heq
        obtain ⟨z, hz, hzp⟩ := Option.map_eq_some_iff.mp (heq.trans hlast).symm
        exact hnodup.1 (List.mem_map.mpr ⟨z, List.mem_of_getLast? hz, hzp⟩)
      rw [if_neg hne, hlast]
  refine ⟨⟨next, cells.getLast?.map Prod.fst, update heap p none⟩, ?_, ?_⟩
  · rw [LinkedList.sortedRemove]
    show (heap p).bind _ = _
    rw [hcell', Option.bind_some]
    show some (_, LinkedList.mk _ _
      (update (ite (some p = last) _ _ : LinkedList α).heap p none)) = _
    rw [hlinks]
  · refine ⟨hchain.update hnodup.1 none, rfl, hnodup.2, ?_, ?_⟩
    · intro a ha
      exact h.own a (List.mem_cons_of_mem p ha)
    · intro a ha
      by_cases hap : a = p
      · subst hap
        rw [h.own a List.mem_cons_self]
        exact update_self ..
      · have hout : a ∉ ((p, v) :: cells).map Prod.fst := by
          rintro (_ | ⟨_, hmem⟩)
          · exact hap rfl
          · exact ha hmem
        exact (update_of_ne hap ..).trans (h.frame a hout)

end Represents

/-! ## The sequence -/

namespace Holds

variable {xs : NachosList α}

theorem append (h : Holds others l xs) (hp : l.heap p = none) (item : α) :
    ∃ l', l.append p item = some l' ∧ Holds others l' (xs.append item) := by
  obtain ⟨cells, hrep, rfl⟩ := h
  obtain ⟨l', hl', hrep'⟩ := hrep.append hp item
  exact ⟨l', hl', _, hrep', List.map_append⟩

theorem prepend (h : Holds others l xs) (hp : l.heap p = none) (item : α) :
    ∃ l', l.prepend p item = some l' ∧ Holds others l' (xs.prepend item) := by
  obtain ⟨cells, hrep, rfl⟩ := h
  obtain ⟨l', hl', hrep'⟩ := hrep.prepend hp item
  exact ⟨l', hl', _, hrep', rfl⟩

theorem sortedInsert (h : Holds others l xs) (hp : l.heap p = none) (item : α) (key : Int)
    {fuel : Nat} (hfuel : xs.length ≤ fuel) :
    ∃ l', l.sortedInsert fuel p item key = some l' ∧
      Holds others l' (xs.sortedInsert item key) := by
  obtain ⟨cells, hrep, rfl⟩ := h
  rw [List.length_map] at hfuel
  obtain ⟨l', hl', hrep'⟩ := hrep.sortedInsert hp item key hfuel
  refine ⟨l', hl', _, hrep', ?_⟩
  exact List.map_orderedInsert _ _ _ _ _ (fun _ _ => Iff.rfl) fun _ _ => Iff.rfl

theorem sortedRemove (h : Holds others l xs) :
    ∃ l', l.sortedRemove = some (xs.sortedRemove.1, l') ∧ Holds others l' xs.sortedRemove.2 := by
  obtain ⟨cells, hrep, rfl⟩ := h
  cases cells with
  | nil => exact ⟨l, hrep.sortedRemove_nil, [], hrep, rfl⟩
  | cons x cells =>
    obtain ⟨l', hl', hrep'⟩ := hrep.sortedRemove_cons
    exact ⟨l', hl', cells, hrep', rfl⟩

theorem remove (h : Holds others l xs) :
    ∃ l', l.remove = some (xs.remove.1, l') ∧ Holds others l' xs.remove.2 := by
  obtain ⟨l', hl', hholds⟩ := h.sortedRemove
  refine ⟨l', ?_, hholds⟩
  rw [LinkedList.remove, hl']
  rfl

theorem first_eq_none (h : Holds others l xs) : l.first = none ↔ xs = [] := by
  obtain ⟨cells, hrep, rfl⟩ := h
  rw [hrep.first_eq_none, List.map_eq_nil_iff]

/-- The element at `last` is the last one. -/
theorem last_element (h : Holds others l xs) {q : Nat} (hq : l.last = some q) :
    ∃ e, l.heap q = some ⟨e, none⟩ ∧ xs.getLast? = some e := by
  obtain ⟨cells, hrep, rfl⟩ := h
  rcases List.eq_nil_or_concat' cells with rfl | ⟨init, ⟨r, w⟩, rfl⟩
  · rw [hrep.last] at hq
    cases hq
  · obtain ⟨hlast, hcell⟩ := hrep.last_cell
    rw [hlast] at hq
    cases hq
    exact ⟨w, hcell, by simp⟩

end Holds

/-! ## Runs -/

/-- A list in use.  `seq` is the sequence of its elements, where an item has the
number of its insertion, and `count` is the number of insertions. -/
structure InUse (α : Type*) where
  list : LinkedList α
  seq : NachosList (Nat × α)
  count : Nat

inductive ListCall (α : Type*) where
  | append (element : Nat) (item : α)
  | prepend (element : Nat) (item : α)
  | sortedInsert (fuel element : Nat) (item : α) (sortKey : Int)
  | remove
  | sortedRemove

/-- The calls for a sorted list. -/
def ListCall.KeepsSorted : ListCall α → Prop
  | .append _ _ => False
  | .prepend _ _ => False
  | _ => True

namespace InUse

def new (heap : Cells (ListElement α)) : InUse α where
  list := .new heap
  seq := []
  count := 0

/-- The elements, without the numbers. -/
def stored (s : InUse α) : NachosList α := s.seq.map fun e => ⟨e.item.2, e.key⟩

def step (s : InUse α) : ListCall α → Option (InUse α)
  | .append element item =>
      (s.list.append element item).map fun l => ⟨l, s.seq.append (s.count, item), s.count + 1⟩
  | .prepend element item =>
      (s.list.prepend element item).map fun l => ⟨l, s.seq.prepend (s.count, item), s.count + 1⟩
  | .sortedInsert fuel element item sortKey =>
      (s.list.sortedInsert fuel element item sortKey).map fun l =>
        ⟨l, s.seq.sortedInsert (s.count, item) sortKey, s.count + 1⟩
  | .remove => s.list.remove.map fun r => ⟨r.2, s.seq.remove.2, s.count⟩
  | .sortedRemove => s.list.sortedRemove.map fun r => ⟨r.2, s.seq.sortedRemove.2, s.count⟩

end InUse

/-- The pointers after a run, and what the next call does.  An insertion needs memory,
and the loop of `SortedInsert` as many rounds as there are elements. -/
structure IsSequence (others : Cells (ListElement α)) (s : InUse α) : Prop where
  holds : Holds others s.list s.stored
  empty : s.list.first = none ↔ s.stored = []
  last : ∀ q, s.list.last = some q →
    ∃ e, s.list.heap q = some ⟨e, none⟩ ∧ s.stored.getLast? = some e
  append : ∀ p item, s.list.heap p = none → ∃ l', s.list.append p item = some l' ∧
    Holds others l' (s.stored ++ [⟨item, 0⟩])
  prepend : ∀ p item, s.list.heap p = none → ∃ l', s.list.prepend p item = some l' ∧
    Holds others l' (⟨item, 0⟩ :: s.stored)
  sortedInsert : ∀ fuel p item key, s.list.heap p = none → s.stored.length ≤ fuel →
    ∃ l' before after, s.list.sortedInsert fuel p item key = some l' ∧
      s.stored = before ++ after ∧ Holds others l' (before ++ ⟨item, key⟩ :: after) ∧
      (∀ e ∈ before, e.key ≤ key) ∧ ∀ e, after.head? = some e → key < e.key
  remove_nil : s.stored = [] →
    s.list.sortedRemove = some (none, s.list) ∧ s.list.remove = some (none, s.list)
  remove_cons : ∀ e rest, s.stored = e :: rest →
    ∃ l', s.list.sortedRemove = some (some (e.item, e.key), l') ∧
      s.list.remove = some (some e.item, l') ∧ Holds others l' rest

/-- What holds in addition if the list is only filled by `SortedInsert`. -/
structure IsSorted (others : Cells (ListElement α)) (s : InUse α) : Prop where
  keys : s.stored.Pairwise fun a b => a.key ≤ b.key
  /-- The new item goes behind all items with a key that is not greater. -/
  insert : ∀ fuel p item key, s.list.heap p = none → s.stored.length ≤ fuel →
    ∃ l' before after, s.list.sortedInsert fuel p item key = some l' ∧
      s.stored = before ++ after ∧ Holds others l' (before ++ ⟨item, key⟩ :: after) ∧
      (∀ e ∈ before, e.key ≤ key) ∧ ∀ e ∈ after, key < e.key
  /-- The item that is removed has a minimal key, and it is the oldest one with this
  key. -/
  remove : ∀ e rest, s.seq = e :: rest →
    ∃ l', s.list.sortedRemove = some (some (e.item.2, e.key), l') ∧
      ∀ e' ∈ rest, e.key ≤ e'.key ∧ (e'.key = e.key → e.item.1 < e'.item.1)

namespace InUse

variable {s s' : InUse α}

theorem stored_sortedInsert (seq : NachosList (Nat × α)) (n : Nat) (item : α) (key : Int) :
    (seq.sortedInsert (n, item) key).map (fun e => (⟨e.item.2, e.key⟩ : ListElement α)) =
      NachosList.sortedInsert (seq.map fun e => ⟨e.item.2, e.key⟩) item key :=
  List.map_orderedInsert _ _ _ _ _ (fun _ _ => Iff.rfl) fun _ _ => Iff.rfl

theorem stored_sortedRemove (seq : NachosList (Nat × α)) :
    seq.sortedRemove.2.map (fun e => (⟨e.item.2, e.key⟩ : ListElement α)) =
      (NachosList.sortedRemove (seq.map fun e => ⟨e.item.2, e.key⟩)).2 := by
  cases seq with
  | nil => rfl
  | cons e es => rfl

/-- The pointers keep up with the sequence. -/
theorem holds_step {a : ListCall α} (h : Holds others s.list s.stored)
    (hstep : s.step a = some s') : Holds others s'.list s'.stored := by
  cases a with
  | append p item =>
    obtain ⟨l, hl, rfl⟩ := Option.map_eq_some_iff.mp hstep
    obtain ⟨_, hnew, _⟩ := Option.bind_eq_some_iff.mp hl
    obtain ⟨l', hl', hholds⟩ := h.append (fresh_of_newElement hnew) item
    rw [hl'] at hl
    cases hl
    rwa [stored, NachosList.append, List.map_append]
  | prepend p item =>
    obtain ⟨l, hl, rfl⟩ := Option.map_eq_some_iff.mp hstep
    obtain ⟨_, hnew, _⟩ := Option.bind_eq_some_iff.mp hl
    obtain ⟨l', hl', hholds⟩ := h.prepend (fresh_of_newElement hnew) item
    rw [hl'] at hl
    cases hl
    exact hholds
  | sortedInsert fuel p item key =>
    obtain ⟨l, hl, rfl⟩ := Option.map_eq_some_iff.mp hstep
    obtain ⟨_, hnew, _⟩ := Option.bind_eq_some_iff.mp hl
    obtain ⟨l', hl', hholds⟩ := h.sortedInsert (fresh_of_newElement hnew) item key
      (Nat.le_add_left s.stored.length fuel)
    rw [sortedInsert_mono hl (Nat.le_add_right fuel s.stored.length)] at hl'
    cases hl'
    rwa [stored, stored_sortedInsert]
  | remove =>
    obtain ⟨r, hr, rfl⟩ := Option.map_eq_some_iff.mp hstep
    obtain ⟨l', hl', hholds⟩ := h.remove
    rw [hl'] at hr
    cases hr
    show Holds others l' (s.seq.sortedRemove.2.map _)
    rw [stored_sortedRemove]
    exact hholds
  | sortedRemove =>
    obtain ⟨r, hr, rfl⟩ := Option.map_eq_some_iff.mp hstep
    obtain ⟨l', hl', hholds⟩ := h.sortedRemove
    rw [hl'] at hr
    cases hr
    show Holds others l' (s.seq.sortedRemove.2.map _)
    rw [stored_sortedRemove]
    exact hholds

end InUse

theorem isSequence_of_holds {s : InUse α} (h : Holds others s.list s.stored) :
    IsSequence others s where
  holds := h
  empty := h.first_eq_none
  last _ hq := h.last_element hq
  append _ item hp := h.append hp item
  prepend _ item hp := h.prepend hp item
  sortedInsert fuel p item key hp hfuel := by
    obtain ⟨l', hl', hholds⟩ := h.sortedInsert hp item key hfuel
    obtain ⟨before, after, hxs, hinsert, hbefore, hafter⟩ :=
      NachosList.sortedInsert_split s.stored item key
    rw [hinsert] at hholds
    exact ⟨l', before, after, hl', hxs, hholds, hbefore, hafter⟩
  remove_nil hnil := by
    have hremove : s.list.sortedRemove = some (none, s.list) := by
      rw [sortedRemove, h.first_eq_none.mpr hnil]
    refine ⟨hremove, ?_⟩
    rw [remove, hremove]
    rfl
  remove_cons e rest hcons := by
    obtain ⟨l', hl', hholds⟩ := h.sortedRemove
    rw [hcons] at hl' hholds
    refine ⟨l', hl', ?_, hholds⟩
    rw [remove, hl']
    rfl

/-! ## Sorted lists -/

/-- The elements are sorted by key, and by the number of the insertion. -/
structure SortedInv (s : InUse α) : Prop where
  sorted : s.seq.SortedBy fun a b => a.1 < b.1
  recent : ∀ x ∈ s.seq.items, x.1 < s.count

namespace SortedInv

variable {s s' : InUse α}

theorem new (heap : Cells (ListElement α)) : SortedInv (.new heap) where
  sorted := List.Pairwise.nil
  recent _ hx := absurd hx List.not_mem_nil

/-- The first element is gone. -/
theorem tail (h : SortedInv s) (l : LinkedList α) :
    SortedInv ⟨l, s.seq.sortedRemove.2, s.count⟩ := by
  obtain ⟨_, seq, count⟩ := s
  cases seq with
  | nil => exact ⟨h.sorted, h.recent⟩
  | cons e es =>
    exact ⟨List.Pairwise.tail h.sorted, fun x hx => h.recent x (List.mem_cons_of_mem e.item hx)⟩

theorem step {a : ListCall α} (h : SortedInv s) (hok : a.KeepsSorted)
    (hstep : s.step a = some s') : SortedInv s' := by
  cases a with
  | append p item | prepend p item => exact absurd hok not_false
  | sortedInsert fuel p item key =>
    obtain ⟨l, _, rfl⟩ := Option.map_eq_some_iff.mp hstep
    refine ⟨h.sorted.sortedInsert h.recent, ?_⟩
    intro x hx
    show x.1 < s.count + 1
    rcases NachosList.mem_items_sortedInsert.mp hx with rfl | hx
    · exact Nat.lt_succ_self s.count
    · exact Nat.lt_succ_of_lt (h.recent x hx)
  | remove | sortedRemove =>
    obtain ⟨r, _, rfl⟩ := Option.map_eq_some_iff.mp hstep
    exact h.tail r.2

/-- The keys do not decrease. -/
theorem keys (h : SortedInv s) : s.stored.Pairwise fun a b => a.key ≤ b.key := by
  refine List.pairwise_map.mpr (h.sorted.imp ?_)
  rintro a b (hlt | ⟨heq, _⟩)
  · exact le_of_lt hlt
  · exact le_of_eq heq

theorem isSorted (h : SortedInv s) (hseq : IsSequence others s) : IsSorted others s where
  keys := h.keys
  insert fuel p item key hp hfuel := by
    obtain ⟨l', before, after, hl', hxs, hholds, hbefore, hafter⟩ :=
      hseq.sortedInsert fuel p item key hp hfuel
    refine ⟨l', before, after, hl', hxs, hholds, hbefore, ?_⟩
    have hkeys := h.keys
    rw [hxs] at hkeys
    cases after with
    | nil => exact fun e he => absurd he List.not_mem_nil
    | cons y ys =>
      have hy := hafter y rfl
      obtain ⟨_, hys, _⟩ := List.pairwise_append.mp hkeys
      intro e he
      rcases List.mem_cons.mp he with rfl | he
      · exact hy
      · exact lt_of_lt_of_le hy (List.rel_of_pairwise_cons hys he)
  remove e rest hcons := by
    have hstored : s.stored = ⟨e.item.2, e.key⟩ :: rest.map fun e => ⟨e.item.2, e.key⟩ := by
      rw [InUse.stored, hcons, List.map_cons]
    obtain ⟨l', hl', _⟩ := hseq.remove_cons _ _ hstored
    refine ⟨l', hl', ?_⟩
    intro e' he'
    have hsorted := h.sorted
    rw [hcons] at hsorted
    rcases List.rel_of_pairwise_cons hsorted he' with hlt | ⟨heq, hitem⟩
    · exact ⟨le_of_lt hlt, fun heq => absurd heq (ne_of_gt hlt)⟩
    · exact ⟨le_of_eq heq, fun _ => hitem⟩

end SortedInv

/-- **The list is a sequence with stable sorted insertion**, in memory with any other
elements and after any calls. -/
theorem isSequence_of_run (heap : Cells (ListElement α)) {as : List (ListCall α)} {s : InUse α}
    (hrun : run InUse.step (.new heap) as = some s) :
    IsSequence heap s ∧
      (Along InUse.step (fun _ a => a.KeepsSorted) (.new heap) as → IsSorted heap s) := by
  have hholds : Holds heap s.list s.stored :=
    run_preserves (I := fun s => Holds heap s.list s.stored)
      (fun _ _ _ h hstep => InUse.holds_step h hstep) ⟨[], .new heap, rfl⟩ hrun
  refine ⟨isSequence_of_holds hholds, ?_⟩
  intro hok
  have hsorted : SortedInv s :=
    run_invariant (fun _ _ _ h hok hstep => h.step hok hstep) (SortedInv.new heap) hok hrun
  exact hsorted.isSorted (isSequence_of_holds hholds)

/-- Two items with the key 3, and one with the key 1 that goes before them.  The
element at address 7 is deleted, and the address is used again. -/
theorem isSequence_of_run_reused :
    ∃ s, run InUse.step (.new fun _ => none) [.sortedInsert 0 7 "a" 1, .sortedRemove,
        .sortedInsert 0 7 "b" 3, .sortedInsert 1 8 "c" 3, .sortedInsert 2 9 "d" 1] = some s ∧
      s.stored = [⟨"d", 1⟩, ⟨"b", 3⟩, ⟨"c", 3⟩] ∧ IsSequence (fun _ => none) s ∧
      IsSorted (fun _ => none) s := by
  have hall := isSequence_of_run (fun _ => none) (show run InUse.step _
    [.sortedInsert 0 7 "a" 1, .sortedRemove, .sortedInsert 0 7 "b" 3, .sortedInsert 1 8 "c" 3,
      .sortedInsert 2 9 "d" 1] = some _ from rfl)
  exact ⟨_, rfl, rfl, hall.1, hall.2 ⟨trivial, trivial, trivial, trivial, trivial, trivial⟩⟩

end LinkedList

end Nachos.Threads

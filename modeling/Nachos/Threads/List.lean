import Mathlib.Data.List.Sort

/-!
# The list of `threads/list.cc`

`class List` is a singly linked list of elements.  An element holds an item
and the key that `SortedInsert` orders by; `Append` and `Prepend` store the
key `0`.  The model is the sequence of elements from `first` to `last`.

Every list of the kernel is one of these: the ready list, the queue of a
semaphore, the waiting queue of a condition variable, and the data list of a
`SynchList`.  `items` is the sequence that the other modules reason about, and
the lemmas below say what each operation does to it.
-/

namespace Nachos.Threads

/-- `class ListElement`: the item and its sort key. -/
structure ListElement (α : Type*) where
  item : α
  key : Int
  deriving DecidableEq, Repr

/-- `class List`, as the sequence of its elements. -/
abbrev NachosList (α : Type*) := List (ListElement α)

namespace NachosList

variable {α : Type*}

/-- The items in list order. -/
def items (xs : NachosList α) : List α := xs.map ListElement.item

/-- `List::Append`: a new element with key `0` after `last`. -/
def append (xs : NachosList α) (item : α) : NachosList α := xs ++ [⟨item, 0⟩]

/-- `List::Prepend`: a new element with key `0` before `first`. -/
def prepend (xs : NachosList α) (item : α) : NachosList α := ⟨item, 0⟩ :: xs

/-- `List::IsEmpty`. -/
def isEmpty (xs : NachosList α) : Bool := List.isEmpty xs

/-- `List::SortedInsert`: the new element goes before the first element whose
key is greater, so it goes after the elements with the same key. -/
def sortedInsert (xs : NachosList α) (item : α) (sortKey : Int) : NachosList α :=
  List.orderedInsert (fun a b => a.key < b.key) ⟨item, sortKey⟩ xs

/-- `List::SortedRemove`: the first item with its key, and the rest of the
list.  `none` is the `NULL` that an empty list returns. -/
def sortedRemove : NachosList α → Option (α × Int) × NachosList α
  | [] => (none, [])
  | e :: es => (some (e.item, e.key), es)

/-- `List::Remove`: `SortedRemove` without the key. -/
def remove (xs : NachosList α) : Option α × NachosList α :=
  ((sortedRemove xs).1.map Prod.fst, (sortedRemove xs).2)

@[simp, grind =] theorem items_nil : items ([] : NachosList α) = [] := rfl

@[simp, grind =] theorem items_cons (e : ListElement α) (es : NachosList α) :
    items (e :: es) = e.item :: items es := rfl

@[simp, grind =] theorem items_append (xs : NachosList α) (a : α) :
    items (append xs a) = items xs ++ [a] := by
  simp [items, append]

@[simp, grind =] theorem remove_nil : remove ([] : NachosList α) = (none, []) := rfl

@[simp, grind =] theorem remove_cons (e : ListElement α) (es : NachosList α) :
    remove (e :: es) = (some e.item, es) := rfl

/-- A sorted insertion adds one element and loses none. -/
theorem sortedInsert_perm (xs : NachosList α) (a : α) (key : Int) :
    (sortedInsert xs a key).Perm (⟨a, key⟩ :: xs) :=
  List.perm_orderedInsert _ _ _

/-- The place of a sorted insertion: no key before it is greater, and the key after
it is. -/
theorem sortedInsert_split (xs : NachosList α) (a : α) (key : Int) :
    ∃ before after, xs = before ++ after ∧ sortedInsert xs a key = before ++ ⟨a, key⟩ :: after ∧
      (∀ e ∈ before, e.key ≤ key) ∧ ∀ e, after.head? = some e → key < e.key := by
  induction xs with
  | nil =>
    refine ⟨[], [], rfl, rfl, fun e he => absurd he List.not_mem_nil, fun e he => ?_⟩
    cases he
  | cons x xs ih =>
    rw [sortedInsert, List.orderedInsert_cons]
    by_cases hlt : key < x.key
    · refine ⟨[], x :: xs, rfl, if_pos hlt, fun e he => absurd he List.not_mem_nil, fun e he => ?_⟩
      cases he
      exact hlt
    · obtain ⟨before, after, hxs, hinsert, hbefore, hafter⟩ := ih
      refine ⟨x :: before, after, congrArg _ hxs, ?_, ?_, hafter⟩
      · rw [if_neg hlt]
        exact congrArg _ hinsert
      · intro e he
        rcases List.mem_cons.mp he with rfl | he
        · exact not_lt.mp hlt
        · exact hbefore e he

theorem mem_sortedInsert {xs : NachosList α} {a : α} {key : Int} {e : ListElement α} :
    e ∈ sortedInsert xs a key ↔ e = ⟨a, key⟩ ∨ e ∈ xs := by
  rw [(sortedInsert_perm xs a key).mem_iff, List.mem_cons]

theorem items_sortedInsert_perm (xs : NachosList α) (a : α) (key : Int) :
    (items (sortedInsert xs a key)).Perm (a :: items xs) :=
  (sortedInsert_perm xs a key).map ListElement.item

@[simp, grind =] theorem mem_items_sortedInsert {xs : NachosList α} {a b : α} {key : Int} :
    b ∈ items (sortedInsert xs a key) ↔ b = a ∨ b ∈ items xs := by
  rw [(items_sortedInsert_perm xs a key).mem_iff, List.mem_cons]

/-- A sorted insertion of a new item keeps the items distinct. -/
@[grind =] theorem nodup_items_sortedInsert {xs : NachosList α} {a : α} {key : Int} :
    (items (sortedInsert xs a key)).Nodup ↔ a ∉ items xs ∧ (items xs).Nodup := by
  rw [(items_sortedInsert_perm xs a key).nodup_iff, List.nodup_cons]

/-- Sorted by key, and by `r` where keys are equal. -/
def SortedBy (r : α → α → Prop) (xs : NachosList α) : Prop :=
  xs.Pairwise fun a b => a.key < b.key ∨ a.key = b.key ∧ r a.item b.item

theorem SortedBy.mono {r r' : α → α → Prop} {xs : NachosList α} (h : SortedBy r xs)
    (hr : ∀ a ∈ items xs, ∀ b, r a b → r' a b) : SortedBy r' xs := by
  refine List.Pairwise.imp_of_mem ?_ h
  intro a b ha _ hab
  have hitem : a.item ∈ items xs := List.mem_map_of_mem ha
  exact hab.imp_right fun he => ⟨he.1, hr a.item hitem b.item he.2⟩

/-- A sorted insertion keeps the order, and goes behind the elements with the
same key. -/
theorem SortedBy.sortedInsert {r : α → α → Prop} {xs : NachosList α} {a : α} {key : Int}
    (h : SortedBy r xs) (hr : ∀ b ∈ items xs, r b a) : SortedBy r (sortedInsert xs a key) := by
  induction xs with
  | nil => exact List.pairwise_singleton _ _
  | cons e es ih =>
    obtain ⟨hhead, htail⟩ := List.pairwise_cons.mp h
    rw [NachosList.sortedInsert, List.orderedInsert]
    split
    · rename_i hlt
      refine List.pairwise_cons.mpr ⟨?_, h⟩
      intro b hb
      rcases List.mem_cons.mp hb with rfl | hb
      · exact Or.inl hlt
      · rcases hhead b hb with hlt' | ⟨heq, _⟩
        · exact Or.inl (lt_trans hlt hlt')
        · exact Or.inl (heq ▸ hlt)
    · rename_i hle
      refine List.pairwise_cons.mpr ⟨?_, ih htail fun b hb => hr b (List.mem_cons_of_mem _ hb)⟩
      intro b hb
      rcases mem_sortedInsert.mp hb with rfl | hb
      · rcases lt_or_eq_of_le (not_lt.mp hle) with hlt | heq
        · exact Or.inl hlt
        · exact Or.inr ⟨heq, hr e.item List.mem_cons_self⟩
      · exact hhead b hb

end NachosList

end Nachos.Threads

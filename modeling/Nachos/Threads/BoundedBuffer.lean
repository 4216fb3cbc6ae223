import Nachos.Lib.Occupancy
import Nachos.Threads.Monitor

/-!
# The bounded buffer

`produce_withCondition` and `consume_withCondition` of `threads/threadtest.cc`
share `ProductList` and its counter `product_num`.  A producer waits on
`produceCondition` while there are `MAX_PRODUCT` products, and a consumer on
`consumeCondition` while there is none.  Each signals the other side.

The pieces of the two functions between kernel calls are the instructions of
`ProdCons`.  The numbers of iterations are arguments; the source has 20 and 10.
The counter is an `Int`, without overflow.  A product is the number of products
that were made before it, which stands for its address.

The proof is about the monitor of `lock`.  `BufferPlace` are the places of a
thread in it.  For each side `BufferGhost` names the threads that have been
signalled and have not tested again, and those that have changed the list and
have not signalled.  The invariant bounds the room of a side by the number of
these threads as long as somebody waits.
-/

namespace Nachos.Threads

open Function Lib

/-! ## The code -/

/-- `lock`. -/
def bufferLock : Nat := 0

def consumeCondition : Nat := 0

def produceCondition : Nat := 1

def MAX_PRODUCT : Int := 10

/-- The code of the two functions. -/
inductive ProdCons where
  /-- The loop of `produce_withCondition`, with `i` iterations to go. -/
  | produceWithCondition (i : Nat)
  /-- `while (product_num >= MAX_PRODUCT)` and the code after it.  `again` says
  that the test follows a `Wait`. -/
  | produceLoop (i : Nat) (again : Bool)
  /-- The loop of `consume_withCondition`, with `i` iterations to go. -/
  | consumeWithCondition (i : Nat)
  /-- `while (ProductList->IsEmpty())` and the code after it. -/
  | consumeLoop (i : Nat) (again : Bool)
  deriving DecidableEq

/-- The list and its counter, and the history of the products. -/
structure ProductData where
  productList : NachosList Nat
  productNum : Int
  /-- The products that have been appended. -/
  produced : List Nat
  /-- What `Remove` has returned to the consumers.  `none` is `NULL`. -/
  consumed : List (Option Nat)

/-- `produce_withCondition` and `consume_withCondition`. -/
def prodCons : Program ProdCons ProductData Empty where
  exec _ i x :=
    match i with
    | .produceWithCondition 0 => some (x, [.finish])
    | .produceWithCondition (i + 1) =>
        some (x, [.acquire bufferLock, .client (.produceLoop i false)])
    | .produceLoop i _ =>
        if MAX_PRODUCT ≤ x.productNum then
          some (x, [.wait produceCondition bufferLock, .oneTick, .client (.produceLoop i true)])
        else
          let pro := x.produced.length
          some ({ x with
              productList := x.productList.append pro
              productNum := x.productNum + 1
              produced := x.produced ++ [pro] },
            [.signal consumeCondition bufferLock, .release bufferLock, .oneTick,
              .client (.produceWithCondition i)])
    | .consumeWithCondition 0 => some (x, [])
    | .consumeWithCondition (i + 1) =>
        some (x, [.acquire bufferLock, .client (.consumeLoop i false)])
    | .consumeLoop i _ =>
        if x.productList.isEmpty then
          some (x, [.wait consumeCondition bufferLock, .oneTick, .client (.consumeLoop i true)])
        else
          let (pro, rest) := x.productList.remove
          some ({ x with
              productList := rest
              productNum := x.productNum - 1
              consumed := x.consumed ++ [pro] },
            [.signal produceCondition bufferLock, .release bufferLock, .oneTick,
              .client (.consumeWithCondition i)])
  handler d := d.elim

/-- The lock and the two conditions belong to the two functions. -/
def prodConsGuarded : Guarded ProdCons where
  lock := bufferLock
  cond c := c == consumeCondition || c == produceCondition
  entry
    | .produceWithCondition _ => true
    | .consumeWithCondition _ => true
    | _ => false

/-! ## The two sides -/

inductive Side where
  | producer
  | consumer
  deriving DecidableEq

namespace Side

def other : Side → Side
  | .producer => .consumer
  | .consumer => .producer

/-- The condition that the side waits on. -/
def condition : Side → Nat
  | .producer => produceCondition
  | .consumer => consumeCondition

/-- The instruction that tests the buffer. -/
def loop : Side → Nat → Bool → ProdCons
  | .producer => .produceLoop
  | .consumer => .consumeLoop

/-- How many threads of the side could go on. -/
def room (x : ProductData) : Side → Int
  | .producer => MAX_PRODUCT - x.productNum
  | .consumer => x.productNum

theorem other_other (r : Side) : r.other.other = r := by
  cases r <;> rfl

theorem other_ne (r : Side) : r.other ≠ r := by
  cases r <;> decide

theorem condition_injective : Injective condition := by
  intro r s h
  cases r <;> cases s <;> first | rfl | cases h

end Side

/-! ## The places -/

/-- The places of a thread in the monitor. -/
inductive BufferPlace where
  | out
  | arriving (r : Side) (i : Nat)
  | testing (r : Side) (i : Nat) (again : Bool)
  /-- The test has failed, and the thread is to wait. -/
  | blocking (r : Side) (i : Nat)
  | asleep (r : Side) (i : Nat)
  /-- The thread has been signalled, and is to take the lock again. -/
  | signalled (r : Side) (i : Nat)
  /-- The thread has changed the list, and is to signal the other side. -/
  | signalling (r : Side)
  | leaving
  deriving DecidableEq

namespace BufferPlace

/-- What the thread still has to do in the monitor. -/
def code : BufferPlace → List (Instr ProdCons)
  | .out => []
  | .arriving r i => [.call (.acquire bufferLock), .call (.client (r.loop i false))]
  | .testing r i again => [.call (.client (r.loop i again))]
  | .blocking r i => [.call (.wait r.condition bufferLock), .call (.client (r.loop i true))]
  | .asleep r i => [.call (.acquire bufferLock), .call (.client (r.loop i true))]
  | .signalled r i => [.call (.acquire bufferLock), .call (.client (r.loop i true))]
  | .signalling r =>
      [.call (.signal r.other.condition bufferLock), .call (.release bufferLock)]
  | .leaving => [.call (.release bufferLock)]

/-- The thread is inside the lock. -/
def inLock : BufferPlace → Bool
  | .testing _ _ _ | .blocking _ _ | .signalling _ | .leaving => true
  | _ => false

/-- The thread waits on the condition of the side. -/
def isAsleep (r : Side) : BufferPlace → Bool
  | .asleep s _ => s = r
  | _ => false

/-- The thread has been signalled and has not tested again. -/
def retests (r : Side) : BufferPlace → Bool
  | .signalled s _ => s = r
  | .testing s _ again => s = r && again
  | _ => false

/-- The thread has changed the list and has not signalled. -/
def signals (r : Side) : BufferPlace → Bool
  | .signalling s => s = r
  | _ => false

/-- The test has failed. -/
def isBlocking (r : Side) : BufferPlace → Bool
  | .blocking s _ => s = r
  | _ => false

variable {p : BufferPlace}

theorem eq_out_of_code (h : p.code = []) : p = .out := by
  cases p <;> first | rfl | cases h

/-- The code after a `Wait`: the thread waits, or it has been signalled. -/
theorem of_code_signalled {r : Side} {i : Nat}
    (h : p.code = (signalled r i).code) : p = .asleep r i ∨ p = .signalled r i := by
  cases p with
  | asleep s j => cases s <;> cases r <;> cases h <;> exact Or.inl rfl
  | signalled s j => cases s <;> cases r <;> cases h <;> exact Or.inr rfl
  | arriving s j => cases s <;> cases r <;> cases h
  | _ => cases h

theorem of_code_testing {r : Side} {i : Nat} {again : Bool}
    (h : p.code = (testing r i again).code) : p = .testing r i again := by
  cases p with
  | testing s j b => cases s <;> cases r <;> cases h <;> rfl
  | _ => cases h

/-- A thread that is to test again has been signalled, or it is testing. -/
theorem retests_iff {r : Side} :
    p.retests r = true ↔ ∃ i, p = .signalled r i ∨ p = .testing r i true := by
  cases p with
  | signalled s j =>
      show decide (s = r) = true ↔ _
      constructor
      · intro h
        exact ⟨j, Or.inl (by rw [of_decide_eq_true h])⟩
      · rintro ⟨i, h | h⟩ <;> cases h
        exact decide_eq_true rfl
  | testing s j again =>
      show (decide (s = r) && again) = true ↔ _
      rw [Bool.and_eq_true]
      constructor
      · intro ⟨hs, hagain⟩
        exact ⟨j, Or.inr (by rw [of_decide_eq_true hs, hagain])⟩
      · rintro ⟨i, h | h⟩ <;> cases h
        exact ⟨decide_eq_true rfl, rfl⟩
  | _ =>
      constructor
      · intro h
        cases h
      · rintro ⟨i, h | h⟩ <;> cases h

end BufferPlace

/-! ## The invariant -/

/-- Where the threads are. -/
structure BufferGhost where
  place : ThreadPtr → BufferPlace
  retesting : Side → Finset ThreadPtr
  signalling : Side → Finset ThreadPtr

/-- The invariant of the buffer. -/
structure BufferInv (g : BufferGhost) (m : Monitor ProdCons ProductData) : Prop where
  code : ∀ t, m.code t = (g.place t).code
  holder : Sole (fun p => p.inLock = true) g.place m.holder
  asleep : ∀ r t, t ∈ m.waiting r.condition ↔ (g.place t).isAsleep r = true
  nodup : ∀ r : Side, (m.waiting r.condition).Nodup
  retesting : ∀ r, Census (fun p => p.retests r = true) g.place (g.retesting r)
  signalling : ∀ r, Census (fun p => p.signals r = true) g.place (g.signalling r)
  count : m.shared.productNum = m.shared.productList.length
  bound : m.shared.productNum ≤ MAX_PRODUCT
  blocking : ∀ r t, (g.place t).isBlocking r = true → r.room m.shared = 0
  products : m.shared.produced.map some = m.shared.consumed ++ m.shared.productList.items.map some
  noLost : ∀ r, m.waiting r.condition ≠ [] →
    r.room m.shared ≤ (g.retesting r).card + (g.signalling r.other).card

namespace BufferInv

variable {g : BufferGhost} {m m' : Monitor ProdCons ProductData} {t : ThreadPtr}
  {p : BufferPlace} {r : Side} {i : Nat} {again : Bool} {x : ProductData}
  {c : ProductData × List (Call ProdCons)}

theorem code_move (h : BufferInv g m) (hcode : m'.code = update m.code t p.code) :
    ∀ u, m'.code u = (update g.place t p u).code := by
  rw [hcode]
  refine (forall_update_iff g.place fun u (q : BufferPlace) =>
    update m.code t p.code u = q.code).mpr ⟨update_self _ _ _, fun u hu => ?_⟩
  rw [update_of_ne hu, h.code]

theorem asleep_move (h : BufferInv g m) (hp : ∀ s, p.isAsleep s = (g.place t).isAsleep s)
    (s : Side) : ∀ u, u ∈ m.waiting s.condition ↔ (update g.place t p u).isAsleep s = true :=
  (forall_update_iff g.place fun u (q : BufferPlace) =>
    u ∈ m.waiting s.condition ↔ q.isAsleep s = true).mpr
      ⟨by rw [h.asleep, hp], fun u _ => h.asleep s u⟩

/-- The thread inside the lock is the only one whose test can have failed. -/
theorem not_blocking (h : BufferInv g m) (ht : (g.place t).inLock = true) {u : ThreadPtr}
    (hu : u ≠ t) (s : Side) : (g.place u).isBlocking s = false := by
  cases hplace : g.place u with
  | blocking q j =>
      have hin : (g.place u).inLock = true := by
        rw [hplace]
        rfl
      exact absurd (h.holder.unique hin ht) hu
  | _ => rfl

theorem blocking_move (h : BufferInv g m) (hp : ∀ s, p.isBlocking s = false) (s : Side) :
    ∀ u, (update g.place t p u).isBlocking s = true → s.room m.shared = 0 := by
  refine (forall_update_iff g.place fun u (q : BufferPlace) =>
    q.isBlocking s = true → s.room m.shared = 0).mpr ⟨fun hq => ?_, fun u _ => h.blocking s u⟩
  rw [hp] at hq
  cases hq

/-- A thread moves, and nothing changes for the two sides. -/
theorem move (h : BufferInv g m) (hcode : m'.code = update m.code t p.code)
    (hholder : Sole (fun p => p.inLock = true) (update g.place t p) m'.holder)
    (hwaiting : m'.waiting = m.waiting) (hshared : m'.shared = m.shared)
    (hasleep : ∀ s, p.isAsleep s = (g.place t).isAsleep s)
    (hretests : ∀ s, p.retests s = (g.place t).retests s)
    (hsignals : ∀ s, p.signals s = (g.place t).signals s)
    (hblocking : ∀ s, p.isBlocking s = false) :
    BufferInv { g with place := update g.place t p } m' where
  code := h.code_move hcode
  holder := hholder
  asleep := by
    rw [hwaiting]
    exact h.asleep_move hasleep
  nodup := by
    rw [hwaiting]
    exact h.nodup
  retesting s := (h.retesting s).stay (by rw [hretests])
  signalling s := (h.signalling s).stay (by rw [hsignals])
  count := by rw [hshared, h.count]
  bound := by rw [hshared]; exact h.bound
  blocking := by
    rw [hshared]
    exact h.blocking_move hblocking
  products := by rw [hshared]; exact h.products
  noLost s hs := by
    rw [hwaiting] at hs
    rw [hshared]
    exact h.noLost s hs

/-- A thread takes the lock. -/
theorem acquire (h : BufferInv g m) (hfree : m.holder = none)
    (hplace : g.place t = .arriving r i ∧ again = false ∨
      g.place t = .signalled r i ∧ again = true) :
    BufferInv { g with place := update g.place t (.testing r i again) }
      ({ m with holder := some t }.setCode t (BufferPlace.testing r i again).code) := by
  have hholder := h.holder
  rw [hfree] at hholder
  refine h.move rfl (hholder.enter rfl) rfl rfl ?_ ?_ ?_ (fun _ => rfl)
  · intro s
    rcases hplace with ⟨hp, _⟩ | ⟨hp, _⟩ <;> rw [hp] <;> rfl
  · intro s
    rcases hplace with ⟨hp, rfl⟩ | ⟨hp, rfl⟩
    · rw [hp]
      exact Bool.and_false _
    · rw [hp]
      exact Bool.and_true _
  · intro s
    rcases hplace with ⟨hp, _⟩ | ⟨hp, _⟩ <;> rw [hp] <;> rfl

/-- The thread inside leaves. -/
theorem release (h : BufferInv g m) (hplace : g.place t = .leaving) :
    BufferInv { g with place := update g.place t .out }
      ({ m with holder := none }.setCode t []) := by
  have hholder := h.holder
  rw [h.holder.holder_eq (t := t) (by rw [hplace]; rfl)] at hholder
  refine h.move (p := .out) rfl (hholder.leave (by simp [BufferPlace.inLock])) rfl rfl
    ?_ ?_ ?_ (fun _ => rfl)
  all_goals
    intro s
    rw [hplace]
    rfl

/-- A thread that tests is no longer one that is to test. -/
theorem retesting_test (h : BufferInv g m) (hplace : g.place t = .testing r i again)
    (hp : ∀ s, p.retests s = false) (s : Side) :
    Census (fun p => p.retests s = true) (update g.place t p)
      (update g.retesting r ((g.retesting r).erase t) s) := by
  by_cases hs : s = r
  · rw [hs, update_self]
    exact (h.retesting r).leave (by simp [hp])
  · rw [update_of_ne hs]
    refine (h.retesting s).stay ?_
    rw [hp, hplace]
    simp [BufferPlace.retests, Ne.symm hs]

/-- The test fails: the side has no room. -/
theorem block (h : BufferInv g m) (hplace : g.place t = .testing r i again)
    (hroom : r.room m.shared = 0) :
    BufferInv
      { g with
        place := update g.place t (.blocking r i)
        retesting := update g.retesting r ((g.retesting r).erase t) }
      (m.setCode t (BufferPlace.blocking r i).code) :=
  { h with
    code := h.code_move rfl
    holder := h.holder.stay (by rw [hplace]; rfl)
    asleep := h.asleep_move (by rw [hplace]; exact fun _ => rfl)
    retesting := h.retesting_test hplace fun _ => rfl
    signalling s := (h.signalling s).stay (by rw [hplace]; rfl)
    blocking s := by
      refine (forall_update_iff g.place fun u (q : BufferPlace) =>
        q.isBlocking s = true → s.room m.shared = 0).mpr ⟨fun hp => ?_, fun u _ => h.blocking s u⟩
      have hs : r = s := by simpa [BufferPlace.isBlocking] using hp
      rw [← hs, hroom]
    noLost s hs := by
      show s.room m.shared ≤ ((update g.retesting r ((g.retesting r).erase t) s).card : Int) +
        (g.signalling s.other).card
      by_cases hsr : s = r
      · rw [hsr, hroom]
        omega
      · rw [update_of_ne hsr]
        exact h.noLost s hs }

/-- The test succeeds: the thread changes the list. -/
theorem pass (h : BufferInv g m) (hplace : g.place t = .testing r i again)
    (hcount : x.productNum = x.productList.length) (hbound : x.productNum ≤ MAX_PRODUCT)
    (hproducts : x.produced.map some = x.consumed ++ x.productList.items.map some)
    (hroom : r.room x = r.room m.shared - 1)
    (hother : r.other.room x = r.other.room m.shared + 1) :
    BufferInv
      { place := update g.place t (.signalling r)
        retesting := update g.retesting r ((g.retesting r).erase t)
        signalling := update g.signalling r (insert t (g.signalling r)) }
      ({ m with shared := x }.setCode t (BufferPlace.signalling r).code) where
  code := h.code_move rfl
  holder := h.holder.stay (by rw [hplace]; rfl)
  asleep := h.asleep_move (by rw [hplace]; exact fun _ => rfl)
  nodup := h.nodup
  retesting := h.retesting_test hplace fun _ => rfl
  signalling s := by
    show Census _ (update g.place t _) (update g.signalling r (insert t (g.signalling r)) s)
    by_cases hs : s = r
    · rw [hs, update_self]
      exact (h.signalling r).enter (by simp [BufferPlace.signals])
    · rw [update_of_ne hs]
      refine (h.signalling s).stay ?_
      rw [hplace]
      simp [BufferPlace.signals, Ne.symm hs]
  count := hcount
  bound := hbound
  blocking s := by
    have hin : (g.place t).inLock = true := by
      rw [hplace]
      rfl
    refine (forall_update_iff g.place fun u (q : BufferPlace) =>
      q.isBlocking s = true → s.room x = 0).mpr ⟨fun hq => ?_, fun u hu hq => ?_⟩
    · cases hq
    · rw [h.not_blocking hin hu] at hq
      cases hq
  products := hproducts
  noLost s hs := by
    have hold := h.noLost s hs
    show s.room x ≤ ((update g.retesting r ((g.retesting r).erase t) s).card : Int) +
      (update g.signalling r (insert t (g.signalling r)) s.other).card
    by_cases hsr : s = r
    · have hne : s.other ≠ r := by
        rw [← hsr]
        exact s.other_ne
      have hcard : (g.retesting r).card - 1 ≤ ((g.retesting r).erase t).card :=
        Finset.pred_card_le_card_erase
      rw [update_of_ne hne, hsr, update_self, hroom]
      rw [hsr] at hold
      omega
    · have hs' : s.other = r := by
        cases s <;> cases r <;> first | rfl | exact absurd rfl hsr
      have hs'' : s = r.other := by
        rw [← hs', s.other_other]
      have hnew : (insert t (g.signalling r)).card = (g.signalling r).card + 1 := by
        refine (h.signalling r).card_enter ?_
        rw [hplace]
        simp [BufferPlace.signals]
      rw [update_of_ne hsr, hs', update_self, hnew]
      rw [hs', hs''] at hold
      rw [hs'', hother]
      omega

theorem condition_ne {s : Side} (hs : s ≠ r) : s.condition ≠ r.condition :=
  fun e => hs (Side.condition_injective e)

/-- The thread inside waits. -/
theorem wait (h : BufferInv g m) (hplace : g.place t = .blocking r i) :
    BufferInv { g with place := update g.place t (.asleep r i) }
      ({ m with
          holder := none
          waiting := update m.waiting r.condition (m.waiting r.condition ++ [t])
        }.setCode t (BufferPlace.asleep r i).code) := by
  have hholder := h.holder
  rw [h.holder.holder_eq (t := t) (by rw [hplace]; rfl)] at hholder
  have hnot : ∀ s : Side, t ∉ m.waiting s.condition := by
    intro s hmem
    have hasleep := (h.asleep s t).mp hmem
    rw [hplace] at hasleep
    cases hasleep
  exact
    { h with
      code := h.code_move rfl
      holder := hholder.leave (by simp [BufferPlace.inLock])
      asleep := fun s => by
        show ∀ u, u ∈ update m.waiting r.condition _ s.condition ↔ _
        by_cases hs : s = r
        · rw [hs, update_self]
          refine (forall_update_iff g.place fun u (q : BufferPlace) =>
            u ∈ m.waiting r.condition ++ [t] ↔ q.isAsleep r = true).mpr ⟨?_, fun u hu => ?_⟩
          · simp [BufferPlace.isAsleep]
          · rw [← h.asleep r u]
            simp [hu]
        · rw [update_of_ne (condition_ne hs)]
          refine (forall_update_iff g.place fun u (q : BufferPlace) =>
            u ∈ m.waiting s.condition ↔ q.isAsleep s = true).mpr ⟨?_, fun u _ => h.asleep s u⟩
          simp [hnot, BufferPlace.isAsleep, Ne.symm hs]
      nodup := fun s => by
        show (update m.waiting r.condition _ s.condition).Nodup
        by_cases hs : s = r
        · rw [hs, update_self, ← List.concat_eq_append]
          exact (h.nodup r).concat (hnot r)
        · rw [update_of_ne (condition_ne hs)]
          exact h.nodup s
      retesting := fun s => (h.retesting s).stay (by rw [hplace]; rfl)
      signalling := fun s => (h.signalling s).stay (by rw [hplace]; rfl)
      blocking := h.blocking_move fun _ => rfl
      noLost := fun s hs => by
        show s.room m.shared ≤ ((g.retesting s).card : Int) + (g.signalling s.other).card
        by_cases hsr : s = r
        · have hroom := h.blocking r t (by simp [hplace, BufferPlace.isBlocking])
          rw [hsr, hroom]
          omega
        · refine h.noLost s ?_
          have hold : update m.waiting r.condition _ s.condition ≠ [] := hs
          rwa [update_of_ne (condition_ne hsr)] at hold }

/-- The longest-waiting thread of a side is woken. -/
theorem wake {u : ThreadPtr} {us : List ThreadPtr} (h : BufferInv g m)
    (hqueue : m.waiting r.condition = u :: us) :
    ∃ j, g.place u = .asleep r j ∧
      BufferInv
        { g with
          place := update g.place u (.signalled r j)
          retesting := update g.retesting r (insert u (g.retesting r)) }
        { m with waiting := update m.waiting r.condition us } ∧
      (insert u (g.retesting r)).card = (g.retesting r).card + 1 := by
  have hasleep : (g.place u).isAsleep r = true := by
    rw [← h.asleep, hqueue]
    exact List.mem_cons_self
  obtain ⟨j, hplace⟩ : ∃ j, g.place u = .asleep r j := by
    cases hp : g.place u with
    | asleep s j =>
        rw [hp] at hasleep
        have hs : s = r := by simpa [BufferPlace.isAsleep] using hasleep
        exact ⟨j, by rw [hs]⟩
    | _ =>
        rw [hp] at hasleep
        cases hasleep
  have hnodup := h.nodup r
  rw [hqueue] at hnodup
  obtain ⟨hu, hus⟩ := List.nodup_cons.mp hnodup
  have hcard : (insert u (g.retesting r)).card = (g.retesting r).card + 1 := by
    refine (h.retesting r).card_enter ?_
    rw [hplace]
    simp [BufferPlace.retests]
  refine ⟨j, hplace, ?_, hcard⟩
  exact
    { code := (forall_update_iff g.place fun w (q : BufferPlace) => m.code w = q.code).mpr
        ⟨by rw [h.code, hplace]; rfl, fun w _ => h.code w⟩
      holder := h.holder.stay (by rw [hplace]; rfl)
      asleep := fun s => by
        show ∀ w, w ∈ update m.waiting r.condition us s.condition ↔ _
        by_cases hs : s = r
        · rw [hs, update_self]
          refine (forall_update_iff g.place fun w (q : BufferPlace) =>
            w ∈ us ↔ q.isAsleep r = true).mpr ⟨?_, fun w hw => ?_⟩
          · simp [hu, BufferPlace.isAsleep]
          · rw [← h.asleep, hqueue]
            simp [hw]
        · rw [update_of_ne (condition_ne hs)]
          refine (forall_update_iff g.place fun w (q : BufferPlace) =>
            w ∈ m.waiting s.condition ↔ q.isAsleep s = true).mpr ⟨?_, fun w _ => h.asleep s w⟩
          rw [h.asleep, hplace]
          simp [BufferPlace.isAsleep, Ne.symm hs]
      nodup := fun s => by
        show (update m.waiting r.condition us s.condition).Nodup
        by_cases hs : s = r
        · rw [hs, update_self]
          exact hus
        · rw [update_of_ne (condition_ne hs)]
          exact h.nodup s
      retesting := fun s => by
        show Census _ (update g.place u _) (update g.retesting r (insert u (g.retesting r)) s)
        by_cases hs : s = r
        · rw [hs, update_self]
          exact (h.retesting r).enter (by simp [BufferPlace.retests])
        · rw [update_of_ne hs]
          refine (h.retesting s).stay ?_
          rw [hplace]
          simp [BufferPlace.retests, Ne.symm hs]
      signalling := fun s => (h.signalling s).stay (by rw [hplace]; rfl)
      count := h.count
      bound := h.bound
      blocking := h.blocking_move fun _ => rfl
      products := h.products
      noLost := fun s hs => by
        show s.room m.shared ≤
          ((update g.retesting r (insert u (g.retesting r)) s).card : Int) +
            (g.signalling s.other).card
        have hold : update m.waiting r.condition us s.condition ≠ [] := hs
        by_cases hsr : s = r
        · have hlost := h.noLost r (by rw [hqueue]; simp)
          rw [hsr, update_self, hcard]
          omega
        · rw [update_of_ne hsr]
          rw [update_of_ne (condition_ne hsr)] at hold
          exact h.noLost s hold }

/-- The thread has signalled. -/
theorem depart (h : BufferInv g m) (hplace : g.place t = .signalling r)
    (hroom : m.waiting r.other.condition ≠ [] → r.other.room m.shared + 1 ≤
      (g.retesting r.other).card + (g.signalling r).card) :
    BufferInv
      { g with
        place := update g.place t .leaving
        signalling := update g.signalling r ((g.signalling r).erase t) }
      (m.setCode t BufferPlace.leaving.code) :=
  { h with
    code := h.code_move rfl
    holder := h.holder.stay (by rw [hplace]; rfl)
    asleep := h.asleep_move (by rw [hplace]; exact fun _ => rfl)
    retesting s := (h.retesting s).stay (by rw [hplace]; rfl)
    signalling s := by
      show Census _ (update g.place t _) (update g.signalling r ((g.signalling r).erase t) s)
      by_cases hs : s = r
      · rw [hs, update_self]
        exact (h.signalling r).leave (by simp [BufferPlace.signals])
      · rw [update_of_ne hs]
        refine (h.signalling s).stay ?_
        rw [hplace]
        simp [BufferPlace.signals, Ne.symm hs]
    blocking := h.blocking_move fun _ => rfl
    noLost s hs := by
      show s.room m.shared ≤ ((g.retesting s).card : Int) +
        (update g.signalling r ((g.signalling r).erase t) s.other).card
      by_cases hsr : s.other = r
      · have hs' : s = r.other := by
          rw [← hsr, s.other_other]
        have hcard : (g.signalling r).card - 1 ≤ ((g.signalling r).erase t).card :=
          Finset.pred_card_le_card_erase
        have hbound := hroom (by rw [← hs']; exact hs)
        rw [hsr, update_self, hs']
        omega
      · rw [update_of_ne hsr]
        exact h.noLost s hs }

/-- The thread inside signals the other side. -/
theorem signal (h : BufferInv g m) (hplace : g.place t = .signalling r) :
    ∃ g', BufferInv g'
      ({ m with
          waiting := update m.waiting r.other.condition (m.waiting r.other.condition).tail
        }.setCode t BufferPlace.leaving.code) := by
  cases hqueue : m.waiting r.other.condition with
  | nil =>
      have hsame : update m.waiting r.other.condition (m.waiting r.other.condition).tail =
          m.waiting := by
        rw [hqueue, List.tail_nil, ← hqueue, update_eq_self]
      rw [hqueue] at hsame
      rw [hsame]
      exact ⟨_, h.depart hplace fun hne => absurd hqueue hne⟩
  | cons u us =>
      obtain ⟨j, hu, hwoken, hcard⟩ := h.wake hqueue
      have hut : t ≠ u := by
        rintro rfl
        rw [hplace] at hu
        cases hu
      refine ⟨_, hwoken.depart (t := t) (r := r) ?_ fun _ => ?_⟩
      · show update g.place u _ t = _
        rw [update_of_ne hut, hplace]
      · have hlost := h.noLost r.other (by rw [hqueue]; simp)
        rw [r.other_other] at hlost
        show r.other.room m.shared + 1 ≤
          ((update g.retesting r.other _ r.other).card : Int) + (g.signalling r).card
        rw [update_self, hcard]
        omega

/-- A thread outside the monitor calls one of the two functions. -/
theorem enter {s : Sched} {j : ProdCons} (h : BufferInv g m) (hcode : m.code t = [])
    (hj : prodConsGuarded.entry j = true) (hexec : prodCons.exec s j m.shared = some c) :
    ∃ g', BufferInv g' ({ m with shared := c.1 }.setCode t
      (prodConsGuarded.code (synchCode (c.2.map Instr.call)))) := by
  have hplace : g.place t = .out := by
    rw [h.code] at hcode
    exact BufferPlace.eq_out_of_code hcode
  have hmove : ∀ p : BufferPlace, (p = .out ∨ ∃ r i, p = .arriving r i) →
      BufferInv { g with place := update g.place t p } (m.setCode t p.code) := by
    rintro p (rfl | ⟨r, i, rfl⟩)
    all_goals
      refine h.move rfl (h.holder.stay ?_) rfl rfl ?_ ?_ ?_ fun _ => rfl
      · simp [hplace, BufferPlace.inLock]
      all_goals
        rw [hplace]
        exact fun _ => rfl
  -- The loop of the function is over, or the thread arrives for its next round.
  cases j with
  | produceWithCondition i =>
      cases i <;> cases hexec
      · exact ⟨_, hmove .out (.inl rfl)⟩
      · exact ⟨_, hmove (.arriving .producer _) (.inr ⟨_, _, rfl⟩)⟩
  | consumeWithCondition i =>
      cases i <;> cases hexec
      · exact ⟨_, hmove .out (.inl rfl)⟩
      · exact ⟨_, hmove (.arriving .consumer _) (.inr ⟨_, _, rfl⟩)⟩
  | produceLoop i again => cases hj
  | consumeLoop i again => cases hj

/-- A producer tests the counter. -/
theorem produce {s : Sched} (h : BufferInv g m) (hplace : g.place t = .testing .producer i again)
    (hexec : prodCons.exec s (.produceLoop i again) m.shared = some c) :
    ∃ g', BufferInv g' ({ m with shared := c.1 }.setCode t
      (prodConsGuarded.code (synchCode (c.2.map Instr.call)))) := by
  have hcount := h.count
  have hbound := h.bound
  simp only [prodCons] at hexec
  split at hexec
  · rename_i hfull
    cases hexec
    refine ⟨_, h.block hplace ?_⟩
    show MAX_PRODUCT - m.shared.productNum = 0
    omega
  · rename_i hroom
    cases hexec
    refine ⟨_, h.pass hplace ?_ ?_ ?_ ?_ ?_⟩
    · show m.shared.productNum + 1 = _
      rw [hcount]
      simp [NachosList.append]
    · show m.shared.productNum + 1 ≤ MAX_PRODUCT
      omega
    · rw [List.map_append, h.products, NachosList.items_append, List.map_append,
        List.append_assoc]
    · show MAX_PRODUCT - (m.shared.productNum + 1) = MAX_PRODUCT - m.shared.productNum - 1
      omega
    · rfl

/-- A consumer tests the list. -/
theorem consume {s : Sched} (h : BufferInv g m) (hplace : g.place t = .testing .consumer i again)
    (hexec : prodCons.exec s (.consumeLoop i again) m.shared = some c) :
    ∃ g', BufferInv g' ({ m with shared := c.1 }.setCode t
      (prodConsGuarded.code (synchCode (c.2.map Instr.call)))) := by
  have hcount := h.count
  have hbound := h.bound
  have hproducts := h.products
  simp only [prodCons] at hexec
  cases hlist : m.shared.productList with
  | nil =>
      rw [if_pos (by rw [hlist]; rfl)] at hexec
      cases hexec
      refine ⟨_, h.block hplace ?_⟩
      show m.shared.productNum = 0
      rw [hcount, hlist]
      rfl
  | cons e es =>
      rw [if_neg (by rw [hlist]; simp [NachosList.isEmpty])] at hexec
      cases hexec
      rw [hlist] at hcount hproducts
      rw [hlist, NachosList.remove_cons]
      rw [List.length_cons] at hcount
      refine ⟨_, h.pass hplace ?_ ?_ ?_ ?_ ?_⟩
      · show m.shared.productNum - 1 = es.length
        omega
      · show m.shared.productNum - 1 ≤ MAX_PRODUCT
        omega
      · rw [hproducts, NachosList.items_cons, List.map_cons, List.append_assoc]
        rfl
      · rfl
      · show MAX_PRODUCT - (m.shared.productNum - 1) = MAX_PRODUCT - m.shared.productNum + 1
        omega

/-- Every step keeps the invariant. -/
theorem step (h : BufferInv g m) (hstep : Monitor.Step prodConsGuarded prodCons t m m') :
    ∃ g', BufferInv g' m' := by
  have hcode := h.code t
  cases hstep with
  | stay => exact ⟨g, h⟩
  | enter s hown hi hs hexec => exact h.enter hown hi hexec
  | client s hown hs hexec =>
      rw [hown] at hcode
      cases hplace : g.place t with
      | testing r i again =>
          rw [hplace] at hcode
          cases r with
          | producer =>
              cases hcode
              exact h.produce hplace hexec
          | consumer =>
              cases hcode
              exact h.consume hplace hexec
      | _ =>
          rw [hplace] at hcode
          cases hcode
  | acquire hown hfree hawake =>
      rw [hown] at hcode
      cases hplace : g.place t with
      | arriving r i =>
          rw [hplace] at hcode
          cases hcode
          exact ⟨_, h.acquire hfree (Or.inl ⟨hplace, rfl⟩)⟩
      | signalled r i =>
          rw [hplace] at hcode
          cases hcode
          exact ⟨_, h.acquire hfree (Or.inr ⟨hplace, rfl⟩)⟩
      | asleep r i =>
          refine absurd ((h.asleep r t).mpr ?_) (hawake r.condition)
          simp [hplace, BufferPlace.isAsleep]
      | _ =>
          rw [hplace] at hcode
          cases hcode
  | release hown =>
      rw [hown] at hcode
      cases hplace : g.place t with
      | leaving =>
          rw [hplace] at hcode
          cases hcode
          exact ⟨_, h.release hplace⟩
      | _ =>
          rw [hplace] at hcode
          cases hcode
  | wait hown =>
      rw [hown] at hcode
      cases hplace : g.place t with
      | blocking r i =>
          rw [hplace] at hcode
          cases hcode
          exact ⟨_, h.wait hplace⟩
      | _ =>
          rw [hplace] at hcode
          cases hcode
  | signal hown =>
      rw [hown] at hcode
      cases hplace : g.place t with
      | signalling r =>
          rw [hplace] at hcode
          cases hcode
          exact h.signal hplace
      | _ =>
          rw [hplace] at hcode
          cases hcode
  | broadcast hown =>
      rw [hown] at hcode
      cases hplace : g.place t <;> rw [hplace] at hcode <;> cases hcode
  | @device d r hexec => exact d.elim

/-- Every thread releases, waits and signals inside the lock. -/
theorem disciplined (h : BufferInv g m) : m.Disciplined prodConsGuarded := by
  intro t i rest hown
  have hcode := h.code t
  have hholder : (g.place t).inLock = true → m.holder = some t := h.holder.holder_eq
  rw [hown] at hcode
  cases hplace : g.place t with
  | blocking r i =>
      rw [hplace] at hcode hholder
      cases hcode
      refine ⟨?_, rfl, hholder rfl⟩
      cases r <;> rfl
  | signalling r =>
      rw [hplace] at hcode hholder
      cases hcode
      exact ⟨rfl, hholder rfl⟩
  | leaving =>
      rw [hplace] at hcode hholder
      cases hcode
      exact hholder rfl
  | out =>
      rw [hplace] at hcode
      cases hcode
  | _ =>
      rw [hplace] at hcode
      cases hcode
      trivial

end BufferInv

/-! ## The bounded buffer in the kernel -/

namespace Kernel

/-- The thread has been woken from its `Wait` on the condition of the side, and
has not tested again. -/
def Signalled (k : Kernel ProdCons ProductData) (r : Side) (t : ThreadPtr) : Prop :=
  t ∉ (k.monitor prodConsGuarded).waiting r.condition ∧
    ∃ i, (k.monitor prodConsGuarded).code t = (BufferPlace.signalled r i).code ∨
      (k.monitor prodConsGuarded).code t = (BufferPlace.testing r i true).code

/-- The thread has changed the list, and is to signal the side. -/
def AboutToSignal (k : Kernel ProdCons ProductData) (r : Side) (t : ThreadPtr) : Prop :=
  (k.monitor prodConsGuarded).code t = (BufferPlace.signalling r.other).code

/-- The list is a bounded buffer, and no wakeup is lost. -/
structure BoundedBuffer (k : Kernel ProdCons ProductData) : Prop where
  count : k.shared.productNum = k.shared.productList.length ∧
    0 ≤ k.shared.productNum ∧ k.shared.productNum ≤ MAX_PRODUCT
  /-- No consumer has removed from an empty list. -/
  removed : none ∉ k.shared.consumed
  /-- The products leave in the order in which they came. -/
  fifo : k.shared.produced.map some =
    k.shared.consumed ++ k.shared.productList.items.map some
  conserved : k.shared.produced.length =
    k.shared.consumed.length + k.shared.productList.length
  /-- While a thread of a side waits, and the lock is free or at least nobody is
  about to signal that side, there is no more room for the side than threads
  that have been signalled and have not tested again. -/
  noLost : ∀ (r : Side) (t : ThreadPtr), t ∈ (k.sched.queue (.cond r.condition)).items →
    (k.value (.lock bufferLock) ≠ 0 ∨ ∀ u, ¬k.AboutToSignal r u) →
    ∃ signalled : Finset ThreadPtr, (∀ u, u ∈ signalled ↔ k.Signalled r u) ∧
      r.room k.shared ≤ signalled.card

section Buffer

variable {k : Kernel ProdCons ProductData} {g : BufferGhost} {t : ThreadPtr} {r : Side}

theorem signalled_iff (h : BufferInv g (k.monitor prodConsGuarded)) :
    k.Signalled r t ↔ (g.place t).retests r = true := by
  have hcode := h.code t
  constructor
  · rintro ⟨hnot, i, hsignalled | htesting⟩
    · rw [hsignalled] at hcode
      rcases BufferPlace.of_code_signalled hcode.symm with hp | hp
      · refine absurd ((h.asleep r t).mpr ?_) hnot
        simp [hp, BufferPlace.isAsleep]
      · exact BufferPlace.retests_iff.mpr ⟨i, Or.inl hp⟩
    · rw [htesting] at hcode
      exact BufferPlace.retests_iff.mpr ⟨i, Or.inr (BufferPlace.of_code_testing hcode.symm)⟩
  · intro hre
    obtain ⟨i, hp⟩ := BufferPlace.retests_iff.mp hre
    refine ⟨fun hmem => ?_, i, ?_⟩
    · have hasleep := (h.asleep r t).mp hmem
      rcases hp with hp | hp <;> rw [hp] at hasleep <;> cases hasleep
    · rcases hp with hp | hp
      · exact Or.inl (by rw [hcode, hp])
      · exact Or.inr (by rw [hcode, hp])

/-- Nobody is about to signal the side. -/
theorem signalling_eq_empty (h : BufferInv g (k.monitor prodConsGuarded))
    (hnone : (k.monitor prodConsGuarded).holder = none ∨ ∀ u, ¬k.AboutToSignal r u) :
    g.signalling r.other = ∅ := by
  refine Finset.eq_empty_of_forall_notMem fun u hu => ?_
  have hsignals := (h.signalling r.other u).mp hu
  cases hplace : g.place u with
  | signalling s =>
      rw [hplace] at hsignals
      have hs : s = r.other := by simpa [BufferPlace.signals] using hsignals
      rcases hnone with hfree | hnone
      · have hholder := h.holder.holder_eq (t := u) (by rw [hplace]; rfl)
        rw [hfree] at hholder
        cases hholder
      · refine hnone u ?_
        rw [AboutToSignal, h.code, hplace, hs]
  | _ =>
      rw [hplace] at hsignals
      cases hsignals

theorem boundedBuffer_of_inv
    (h : k.Monitored prodConsGuarded fun m => ∃ g, BufferInv g m) : k.BoundedBuffer := by
  obtain ⟨g, hg⟩ := h.inv
  have hcount : k.shared.productNum = k.shared.productList.length := hg.count
  have hproducts : k.shared.produced.map some =
      k.shared.consumed ++ k.shared.productList.items.map some := hg.products
  refine ⟨⟨hcount, by omega, hg.bound⟩, fun hmem => ?_, hproducts, ?_, ?_⟩
  · have hnone : none ∈ k.shared.produced.map some := by
      rw [hproducts]
      exact List.mem_append_left _ hmem
    simp at hnone
  · have hlength := congrArg List.length hproducts
    simpa [NachosList.items] using hlength
  · intro r t ht hquiet
    have hwaits : t ∈ (k.monitor prodConsGuarded).waiting r.condition :=
      h.mem_waiting (by cases r <;> rfl) ht
    have hempty : g.signalling r.other = ∅ :=
      signalling_eq_empty hg (hquiet.imp_left h.holder_eq_none)
    refine ⟨g.retesting r, fun u => ?_, ?_⟩
    · rw [signalled_iff hg, hg.retesting r u]
    · have hlost := hg.noLost r (List.ne_nil_of_mem hwaits)
      rw [hempty, Finset.card_empty] at hlost
      show r.room (k.monitor prodConsGuarded).shared ≤ (g.retesting r).card
      omega

end Buffer

/-- No thread has called one of the functions yet. -/
theorem bufferInv_init (initialValue : Nat → Int) (holding : Nat → Option ThreadPtr) :
    ∃ g, BufferInv g ((init initialValue holding ⟨[], 0, [], []⟩ :
      Kernel ProdCons ProductData).monitor prodConsGuarded) := by
  refine ⟨⟨fun _ => .out, fun _ => ∅, fun _ => ∅⟩, ?_⟩
  have hempty : ∀ r : Side, ((init initialValue holding ⟨[], 0, [], []⟩ :
      Kernel ProdCons ProductData).monitor prodConsGuarded).waiting r.condition = [] := by
    intro r
    cases r <;> rfl
  exact
    { code := fun _ => rfl
      holder := fun _ => ⟨nofun, nofun⟩
      asleep := fun r t => by
        rw [hempty]
        simp [BufferPlace.isAsleep]
      nodup := fun r => by
        rw [hempty]
        exact List.nodup_nil
      retesting := fun _ _ => by simp [BufferPlace.retests]
      signalling := fun _ _ => by simp [BufferPlace.signals]
      count := rfl
      bound := by
        show (0 : Int) ≤ MAX_PRODUCT
        decide
      blocking := fun _ _ hb => by cases hb
      products := rfl
      noLost := fun r hr => absurd (hempty r) hr }

/-- In every run of threads that call `produce_withCondition` and
`consume_withCondition`, for any number of iterations, the list is a bounded
buffer. -/
theorem bounded_buffer (initialValue : Nat → Int) (holding : Nat → Option ThreadPtr)
    (as : List (Action ProdCons Empty)) (k : Kernel ProdCons ProductData)
    (hok : Along (step prodCons)
      (fun k a => k.ForkOnce a ∧ OutsideStart prodConsGuarded.reserved a)
      (init initialValue holding ⟨[], 0, [], []⟩) as)
    (hrun : run (step prodCons) (init initialValue holding ⟨[], 0, [], []⟩) as = some k) :
    k.BoundedBuffer :=
  boundedBuffer_of_inv (monitor_invariant
    (fun _ _ _ h hstep => h.elim fun _ hg => hg.step hstep)
    (fun _ h => h.elim fun _ hg => hg.disciplined)
    (bufferInv_init initialValue holding) hok hrun)

/-- Two consumers find the list empty, and a producer follows them. -/
def twoConsumers (n : Nat) : List (Action ProdCons Empty) :=
  .start [.newThread 255, .newThread 255, .newThread 255, .fork 1 (.consumeWithCondition 10),
    .fork 2 (.consumeWithCondition 10), .fork 3 (.produceWithCondition 20), .yield] ::
    List.replicate n .exec

/-- There is one product, the first consumer has been signalled for it, and the
second consumer waits. -/
theorem bounded_buffer_two : ∃ k : Kernel ProdCons ProductData,
    run (step prodCons) (init (fun _ => 0) (fun _ => none) ⟨[], 0, [], []⟩) (twoConsumers 50) =
      some k ∧ k.shared.productNum = 1 ∧ k.value (.lock bufferLock) = 1 ∧
      (k.sched.queue (.cond consumeCondition)).items = [2] ∧ k.Signalled .consumer 1 ∧
      k.BoundedBuffer :=
  ⟨_, rfl, rfl, rfl, rfl, ⟨by decide, 9, Or.inl rfl⟩,
    bounded_buffer (fun _ => 0) (fun _ => none) (twoConsumers 50) _ (by decide) rfl⟩

end Kernel

end Nachos.Threads

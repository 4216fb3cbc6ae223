import Nachos.Lib.Occupancy
import Nachos.Threads.Protocol

/-!
# Readers and writers

`read` and `write` of `threads/threadtest.cc` share the variable `content`.
`rcLock` protects `readerCount`.  `writeLock` is held by one writer, or by the
readers as a group: the first reader takes it and the last one gives it back,
which may be different threads.

The pieces of the two functions between kernel calls are the instructions of
`ReadWrite`.  The numbers of iterations are arguments of `read` and `write`; the
source has five.  The counters are `Int`, without overflow.

`RwPlace` are the places of a thread in the protocol, and `RwInv` is the
invariant: who is inside `rcLock`, who writes, which readers are counted, and
whether the readers have `writeLock`.
-/

namespace Nachos.Threads

open Function Lib

/-! ## The code -/

def rcLock : Nat := 0

def writeLock : Nat := 1

/-- The code of `read` and `write`. -/
inductive ReadWrite where
  /-- The loop of `read`, with `i` iterations to go. -/
  | read (i : Nat)
  /-- `readerCount++` and the code up to the end of the iteration. -/
  | enter (i : Nat)
  /-- The `printf` of a reader. -/
  | printContent
  /-- `readerCount--` and the code up to the end of the iteration. -/
  | leave (i : Nat)
  /-- The loop of `write`, with `i` iterations to go. -/
  | write (i : Nat)
  /-- `content++` and the code up to the end of the iteration. -/
  | increment (i : Nat)
  deriving DecidableEq

/-- The variables, and the values that have been printed. -/
structure ReadWriteData where
  readerCount : Int
  content : Int
  printed : List Int

/-- `read` and `write`. -/
def readWrite : Program ReadWrite ReadWriteData Empty where
  exec _ i x :=
    match i with
    | .read 0 => some (x, [])
    | .read (i + 1) => some (x, [.acquire rcLock, .client (.enter i)])
    | .enter i =>
        let readerCount := x.readerCount + 1
        some ({ x with readerCount := readerCount },
          (if readerCount = 1 then [.acquire writeLock] else []) ++
            [.release rcLock, .client .printContent, .acquire rcLock, .client (.leave i)])
    | .printContent => some ({ x with printed := x.printed ++ [x.content] }, [])
    | .leave i =>
        let readerCount := x.readerCount - 1
        some ({ x with readerCount := readerCount },
          (if readerCount = 0 then [.release writeLock] else []) ++
            [.release rcLock, .yield, .client (.read i)])
    | .write 0 => some (x, [])
    | .write (i + 1) => some (x, [.acquire writeLock, .client (.increment i)])
    | .increment i =>
        let content := x.content + 1
        some ({ x with content := content, printed := x.printed ++ [content] },
          [.release writeLock, .yield, .client (.write i)])
  handler d := d.elim

/-- The two locks belong to `read` and `write`. -/
def rwReserved : Reserved ReadWrite where
  sem s := s == .lock rcLock || s == .lock writeLock
  cond _ := false
  entry
    | .read _ => true
    | .write _ => true
    | _ => false

/-! ## The places -/

/-- The places of a thread in `read` and `write`. -/
inductive RwPlace where
  | out
  | entering (i : Nat)
  | counting (i : Nat)
  /-- The reader is the first, and is to take `writeLock`. -/
  | first (i : Nat)
  | opening (i : Nat)
  | reading (i : Nat)
  | leaving (i : Nat)
  | uncounting (i : Nat)
  /-- The reader was the last, and is to give `writeLock` back. -/
  | last
  | closing
  | arriving (i : Nat)
  | writing (i : Nat)
  | written
  deriving DecidableEq

namespace RwPlace

/-- What the thread still has to do in the protocol. -/
def code : RwPlace → List (Instr ReadWrite)
  | .out => []
  | .entering i => [.call (.acquire rcLock), .call (.client (.enter i))]
  | .counting i => [.call (.client (.enter i))]
  | .first i => [.call (.acquire writeLock), .call (.release rcLock),
      .call (.client .printContent), .call (.acquire rcLock), .call (.client (.leave i))]
  | .opening i => [.call (.release rcLock), .call (.client .printContent),
      .call (.acquire rcLock), .call (.client (.leave i))]
  | .reading i => [.call (.client .printContent), .call (.acquire rcLock),
      .call (.client (.leave i))]
  | .leaving i => [.call (.acquire rcLock), .call (.client (.leave i))]
  | .uncounting i => [.call (.client (.leave i))]
  | .last => [.call (.release writeLock), .call (.release rcLock)]
  | .closing => [.call (.release rcLock)]
  | .arriving i => [.call (.acquire writeLock), .call (.client (.increment i))]
  | .writing i => [.call (.client (.increment i))]
  | .written => [.call (.release writeLock)]

/-- The thread is inside `rcLock`. -/
def inRc : RwPlace → Bool
  | .counting _ | .first _ | .opening _ | .uncounting _ | .last | .closing => true
  | _ => false

/-- The thread is a writer inside `writeLock`. -/
def inWrite : RwPlace → Bool
  | .writing _ | .written => true
  | _ => false

/-- `readerCount` counts the thread. -/
def counted : RwPlace → Bool
  | .first _ | .opening _ | .reading _ | .leaving _ | .uncounting _ => true
  | _ => false

def isFirst : RwPlace → Bool
  | .first _ => true
  | _ => false

def isLast : RwPlace → Bool
  | .last => true
  | _ => false

/-- Everything about a place but `rcLock`. -/
def marks (p : RwPlace) : Bool × Bool × Bool × Bool :=
  (p.inWrite, p.isFirst, p.isLast, p.counted)

theorem marks_eq {p q : RwPlace} (h : p.marks = q.marks) : p.inWrite = q.inWrite ∧
    p.isFirst = q.isFirst ∧ p.isLast = q.isLast ∧ p.counted = q.counted := by
  simpa [marks] using h

theorem inRc_of_isFirst {p : RwPlace} (h : p.isFirst = true) : p.inRc = true := by
  cases p <;> first | rfl | cases h

theorem inRc_of_isLast {p : RwPlace} (h : p.isLast = true) : p.inRc = true := by
  cases p <;> first | rfl | cases h

theorem code_injective {p q : RwPlace} (h : p.code = q.code) : p = q := by
  cases p <;> cases q <;> cases h <;> rfl

theorem eq_out_of_code {p : RwPlace} (h : p.code = []) : p = .out := by
  cases p <;> first | rfl | cases h

end RwPlace

theorem write_ne_rc : SemId.lock writeLock ≠ .lock rcLock := by
  decide

/-! ## The invariant -/

/-- Where the threads are, and what follows for the two locks. -/
structure RwGhost where
  place : ThreadPtr → RwPlace
  /-- The thread inside `rcLock`. -/
  counter : Option ThreadPtr
  /-- The writer inside `writeLock`. -/
  writer : Option ThreadPtr
  first : Option ThreadPtr
  last : Option ThreadPtr
  /-- The readers that `readerCount` counts. -/
  readers : Finset ThreadPtr
  /-- The readers have `writeLock`. -/
  group : Bool

/-- The invariant of `read` and `write`. -/
structure RwInv (g : RwGhost) (c : Config ReadWrite ReadWriteData) : Prop where
  own : ∀ t, c.own t = (g.place t).code
  counter : Sole (fun p => p.inRc = true) g.place g.counter
  writer : Sole (fun p => p.inWrite = true) g.place g.writer
  first : Sole (fun p => p.isFirst = true) g.place g.first
  last : Sole (fun p => p.isLast = true) g.place g.last
  readers : Census (fun p => p.counted = true) g.place g.readers
  rcValue : c.value (.lock rcLock) = if g.counter = none then 1 else 0
  writeValue : c.value (.lock writeLock) = if g.writer = none ∧ g.group = false then 1 else 0
  exclusive : g.writer = none ∨ g.group = false
  count : c.shared.readerCount = g.readers.card
  group : g.group = true ↔ g.last ≠ none ∨ g.first = none ∧ g.readers.Nonempty
  emptied : g.last ≠ none → g.readers = ∅
  alone : ∀ u, g.first = some u → g.readers = {u}

namespace RwInv

variable {g : RwGhost} {c c' : Config ReadWrite ReadWriteData} {t : ThreadPtr} {p : RwPlace}

theorem own_update (h : RwInv g c) (hown : c'.own = update c.own t p.code) (u : ThreadPtr) :
    c'.own u = (update g.place t p u).code := by
  rw [hown]
  by_cases hu : u = t
  · rw [hu, update_self, update_self]
  · rw [update_of_ne hu, update_of_ne hu, h.own]

/-- A thread that is inside `rcLock` and is not the first reader: nobody is. -/
theorem first_eq_none (h : RwInv g c) (hin : (g.place t).inRc = true)
    (hnot : (g.place t).isFirst = false) : g.first = none := by
  cases hf : g.first with
  | none => rfl
  | some u =>
      have hu : (g.place u).isFirst = true := (h.first u).mpr hf
      have hut : t = u := h.counter.unique hin (RwPlace.inRc_of_isFirst hu)
      rw [hut, hu] at hnot
      cases hnot

theorem last_eq_none (h : RwInv g c) (hin : (g.place t).inRc = true)
    (hnot : (g.place t).isLast = false) : g.last = none := by
  cases hl : g.last with
  | none => rfl
  | some u =>
      have hu : (g.place u).isLast = true := (h.last u).mpr hl
      have hut : t = u := h.counter.unique hin (RwPlace.inRc_of_isLast hu)
      rw [hut, hu] at hnot
      cases hnot

/-- A thread moves to a place with the same marks. -/
theorem glide (h : RwInv g c) (hown : c'.own = update c.own t p.code)
    (hvalue : c'.value = c.value) (hcount : c'.shared.readerCount = c.shared.readerCount)
    (hinRc : p.inRc = (g.place t).inRc) (hmarks : p.marks = (g.place t).marks) :
    RwInv { g with place := update g.place t p } c' := by
  obtain ⟨hwrite, hfirst, hlast, hcounted⟩ := RwPlace.marks_eq hmarks
  exact
    { h with
      own := h.own_update hown
      counter := h.counter.stay (by rw [hinRc])
      writer := h.writer.stay (by rw [hwrite])
      first := h.first.stay (by rw [hfirst])
      last := h.last.stay (by rw [hlast])
      readers := h.readers.stay (by rw [hcounted])
      rcValue := by rw [hvalue, h.rcValue]
      writeValue := by rw [hvalue, h.writeValue]
      count := hcount.trans h.count }

/-- A thread passes the `P` of `rcLock`. -/
theorem takeRc (h : RwInv g c) (hvalue : c.value (.lock rcLock) ≠ 0) (hinRc : p.inRc = true)
    (hmarks : p.marks = (g.place t).marks) :
    RwInv { g with place := update g.place t p, counter := some t }
      ((c.take (.lock rcLock)).setOwn t p.code) := by
  obtain ⟨hwrite, hfirst, hlast, hcounted⟩ := RwPlace.marks_eq hmarks
  have hfree : g.counter = none := by
    by_contra hsome
    rw [h.rcValue, if_neg hsome] at hvalue
    exact hvalue rfl
  have hcounter := h.counter
  have hrc := h.rcValue
  rw [hfree] at hcounter hrc
  exact
    { h with
      own := h.own_update rfl
      counter := hcounter.enter hinRc
      writer := h.writer.stay (by rw [hwrite])
      first := h.first.stay (by rw [hfirst])
      last := h.last.stay (by rw [hlast])
      readers := h.readers.stay (by rw [hcounted])
      rcValue := by
        show (c.take (.lock rcLock)).value (.lock rcLock) = 0
        rw [Config.take_self, hrc]
        rfl
      writeValue := (Config.take_of_ne write_ne_rc c).trans h.writeValue }

/-- The thread inside `rcLock` releases it. -/
theorem releaseRc (h : RwInv g c) (hin : (g.place t).inRc = true) (hinRc : p.inRc = false)
    (hmarks : p.marks = (g.place t).marks) :
    RwInv { g with place := update g.place t p, counter := none }
      ((c.post (.lock rcLock)).setOwn t p.code) := by
  obtain ⟨hwrite, hfirst, hlast, hcounted⟩ := RwPlace.marks_eq hmarks
  have hholder : g.counter = some t := h.counter.holder_eq hin
  have hcounter := h.counter
  have hrc := h.rcValue
  rw [hholder] at hcounter hrc
  exact
    { h with
      own := h.own_update rfl
      counter := hcounter.leave (by simp [hinRc])
      writer := h.writer.stay (by rw [hwrite])
      first := h.first.stay (by rw [hfirst])
      last := h.last.stay (by rw [hlast])
      readers := h.readers.stay (by rw [hcounted])
      rcValue := by
        show (c.post (.lock rcLock)).value (.lock rcLock) = 1
        rw [Config.post_self, hrc]
        rfl
      writeValue := (Config.post_of_ne write_ne_rc c).trans h.writeValue }

/-- While `writeLock` has a unit, neither a writer nor the readers have it. -/
theorem free_of_value (h : RwInv g c) (hvalue : c.value (.lock writeLock) ≠ 0) :
    g.writer = none ∧ g.group = false ∧ c.value (.lock writeLock) = 1 := by
  by_cases hfree : g.writer = none ∧ g.group = false
  · exact ⟨hfree.1, hfree.2, by rw [h.writeValue, if_pos hfree]⟩
  · rw [h.writeValue, if_neg hfree] at hvalue
    exact absurd rfl hvalue

/-- A writer passes the `P` of `writeLock`. -/
theorem takeWrite {i : Nat} (h : RwInv g c) (hplace : g.place t = .arriving i)
    (hvalue : c.value (.lock writeLock) ≠ 0) :
    RwInv { g with place := update g.place t (.writing i), writer := some t }
      ((c.take (.lock writeLock)).setOwn t (RwPlace.writing i).code) := by
  obtain ⟨hnone, hgroup, hone⟩ := h.free_of_value hvalue
  have hwriter := h.writer
  rw [hnone] at hwriter
  exact
    { h with
      own := h.own_update rfl
      counter := h.counter.stay (by rw [hplace]; rfl)
      writer := hwriter.enter rfl
      first := h.first.stay (by rw [hplace]; rfl)
      last := h.last.stay (by rw [hplace]; rfl)
      readers := h.readers.stay (by rw [hplace]; rfl)
      rcValue := (Config.take_of_ne write_ne_rc.symm c).trans h.rcValue
      writeValue := by
        show (c.take (.lock writeLock)).value (.lock writeLock) = 0
        rw [Config.take_self, hone]
        rfl
      exclusive := Or.inr hgroup }

/-- The writer releases `writeLock`. -/
theorem releaseWrite (h : RwInv g c) (hplace : g.place t = .written) :
    RwInv { g with place := update g.place t .out, writer := none }
      ((c.post (.lock writeLock)).setOwn t RwPlace.out.code) := by
  have hholder : g.writer = some t := h.writer.holder_eq (by rw [hplace]; rfl)
  have hgroup : g.group = false := h.exclusive.resolve_left (by simp [hholder])
  have hwriter := h.writer
  have hvalue := h.writeValue
  rw [hholder] at hwriter hvalue
  exact
    { h with
      own := h.own_update rfl
      counter := h.counter.stay (by rw [hplace]; rfl)
      writer := hwriter.leave (by simp [RwPlace.inWrite])
      first := h.first.stay (by rw [hplace]; rfl)
      last := h.last.stay (by rw [hplace]; rfl)
      readers := h.readers.stay (by rw [hplace]; rfl)
      rcValue := (Config.post_of_ne write_ne_rc.symm c).trans h.rcValue
      writeValue := by
        show (c.post (.lock writeLock)).value (.lock writeLock) = _
        rw [Config.post_self, hvalue]
        simp [hgroup]
      exclusive := Or.inl rfl }

/-- The first reader passes the `P` of `writeLock`. -/
theorem takeFirst {i : Nat} (h : RwInv g c) (hplace : g.place t = .first i)
    (hvalue : c.value (.lock writeLock) ≠ 0) :
    RwInv { g with place := update g.place t (.opening i), first := none, group := true }
      ((c.take (.lock writeLock)).setOwn t (RwPlace.opening i).code) := by
  obtain ⟨hnone, _, hone⟩ := h.free_of_value hvalue
  have hholder : g.first = some t := h.first.holder_eq (by rw [hplace]; rfl)
  have hlast : g.last = none := h.last_eq_none (t := t) (by rw [hplace]; rfl) (by rw [hplace]; rfl)
  have hfirst := h.first
  rw [hholder] at hfirst
  exact
    { own := h.own_update rfl
      counter := h.counter.stay (by rw [hplace]; rfl)
      writer := h.writer.stay (by rw [hplace]; rfl)
      first := hfirst.leave (by simp [RwPlace.isFirst])
      last := h.last.stay (by rw [hplace]; rfl)
      readers := h.readers.stay (by rw [hplace]; rfl)
      rcValue := (Config.take_of_ne write_ne_rc.symm c).trans h.rcValue
      writeValue := by
        show (c.take (.lock writeLock)).value (.lock writeLock) = _
        rw [Config.take_self, hone]
        simp
      exclusive := Or.inl hnone
      count := h.count
      group := by
        have hmem : t ∈ g.readers := (h.readers t).mpr (by rw [hplace]; rfl)
        exact ⟨fun _ => Or.inr ⟨rfl, t, hmem⟩, fun _ => rfl⟩
      emptied := fun hl => absurd hlast hl
      alone := nofun }

/-- The last reader releases `writeLock`. -/
theorem releaseLast (h : RwInv g c) (hplace : g.place t = .last) :
    RwInv { g with place := update g.place t .closing, last := none, group := false }
      ((c.post (.lock writeLock)).setOwn t RwPlace.closing.code) := by
  have hholder : g.last = some t := h.last.holder_eq (by rw [hplace]; rfl)
  have hgroup : g.group = true := h.group.mpr (Or.inl (by simp [hholder]))
  have hnone : g.writer = none := h.exclusive.resolve_right (by simp [hgroup])
  have hempty : g.readers = ∅ := h.emptied (by simp [hholder])
  have hlast := h.last
  rw [hholder] at hlast
  exact
    { own := h.own_update rfl
      counter := h.counter.stay (by rw [hplace]; rfl)
      writer := h.writer.stay (by rw [hplace]; rfl)
      first := h.first.stay (by rw [hplace]; rfl)
      last := hlast.leave (by simp [RwPlace.isLast])
      readers := h.readers.stay (by rw [hplace]; rfl)
      rcValue := (Config.post_of_ne write_ne_rc.symm c).trans h.rcValue
      writeValue := by
        show (c.post (.lock writeLock)).value (.lock writeLock) = _
        rw [Config.post_self, h.writeValue, hgroup]
        simp [hnone]
      exclusive := Or.inr rfl
      count := h.count
      group := by simp [hempty]
      emptied := fun hl => absurd rfl hl
      alone := fun u hu => by
        have hfirst : g.first = none :=
          h.first_eq_none (t := t) (by rw [hplace]; rfl) (by rw [hplace]; rfl)
        rw [hfirst] at hu
        cases hu }

/-- A reader counts itself.  It goes on to take `writeLock` if it is the first,
and otherwise the readers have the lock. -/
theorem enter {i : Nat} (h : RwInv g c) (hplace : g.place t = .counting i) (hp : p.inRc = true)
    (hcounted : p.counted = true) (hinWrite : p.inWrite = false) (hlast : p.isLast = false)
    (hfirst : p.isFirst = true ↔ g.readers = ∅)
    (hc : c' = { c with shared := { c.shared with readerCount := c.shared.readerCount + 1 }
      }.setOwn t p.code) :
    ∃ g', RwInv g' c' := by
  have hin : (g.place t).inRc = true := by
    rw [hplace]
    rfl
  have hnoFirst : g.first = none := h.first_eq_none hin (by rw [hplace]; rfl)
  have hnoLast : g.last = none := h.last_eq_none hin (by rw [hplace]; rfl)
  have hout : ¬(g.place t).counted = true := by simp [hplace, RwPlace.counted]
  have hfirst0 := h.first
  rw [hnoFirst] at hfirst0
  have hgroup : g.group = true ↔ g.readers.Nonempty := by
    rw [h.group, hnoFirst, hnoLast]
    simp
  subst hc
  refine ⟨{ g with
      place := update g.place t p
      first := if p.isFirst = true then some t else none
      readers := insert t g.readers }, ?_⟩
  exact
    { own := h.own_update rfl
      counter := h.counter.stay (by rw [hp, hin])
      writer := h.writer.stay (by rw [hinWrite, hplace]; rfl)
      first := by
        by_cases hf : p.isFirst = true
        · rw [if_pos hf]
          exact hfirst0.enter hf
        · rw [if_neg hf]
          refine hfirst0.stay ⟨fun e => absurd e hf, fun e => ?_⟩
          rw [hplace] at e
          cases e
      last := h.last.stay (by rw [hlast, hplace]; rfl)
      readers := h.readers.enter hcounted
      rcValue := h.rcValue
      writeValue := h.writeValue
      exclusive := h.exclusive
      count := by
        show c.shared.readerCount + 1 = ((insert t g.readers).card : Int)
        rw [h.readers.card_enter hout, h.count]
        rfl
      group := by
        rw [hgroup, hnoLast]
        by_cases hf : p.isFirst = true
        · simp [hf, hfirst.mp hf]
        · have hne : g.readers.Nonempty :=
            Finset.nonempty_iff_ne_empty.mpr fun he => hf (hfirst.mpr he)
          simp [hf, hne]
      emptied := fun hl => absurd hnoLast hl
      alone := by
        intro u hu
        by_cases hf : p.isFirst = true
        · rw [if_pos hf] at hu
          cases hu
          rw [hfirst.mp hf]
          rfl
        · rw [if_neg hf] at hu
          cases hu }

/-- A reader stops counting itself.  If it was the last, it goes on to give
`writeLock` back. -/
theorem leave {i : Nat} (h : RwInv g c) (hplace : g.place t = .uncounting i)
    (hp : p.inRc = true) (hcounted : p.counted = false) (hinWrite : p.inWrite = false)
    (hfirst : p.isFirst = false) (hlast : p.isLast = true ↔ g.readers.erase t = ∅)
    (hc : c' = { c with shared := { c.shared with readerCount := c.shared.readerCount - 1 }
      }.setOwn t p.code) :
    ∃ g', RwInv g' c' := by
  have hin : (g.place t).inRc = true := by
    rw [hplace]
    rfl
  have hnoFirst : g.first = none := h.first_eq_none hin (by rw [hplace]; rfl)
  have hnoLast : g.last = none := h.last_eq_none hin (by rw [hplace]; rfl)
  have hmem : (g.place t).counted = true := by
    rw [hplace]
    rfl
  have hlast0 := h.last
  rw [hnoLast] at hlast0
  have hgroup : g.group = true :=
    h.group.mpr (Or.inr ⟨hnoFirst, t, (h.readers t).mpr hmem⟩)
  subst hc
  refine ⟨{ g with
      place := update g.place t p
      last := if p.isLast = true then some t else none
      readers := g.readers.erase t }, ?_⟩
  exact
    { own := h.own_update rfl
      counter := h.counter.stay (by rw [hp, hin])
      writer := h.writer.stay (by rw [hinWrite, hplace]; rfl)
      first := h.first.stay (by rw [hfirst, hplace]; rfl)
      last := by
        by_cases hl : p.isLast = true
        · rw [if_pos hl]
          exact hlast0.enter hl
        · rw [if_neg hl]
          refine hlast0.stay ⟨fun e => absurd e hl, fun e => ?_⟩
          rw [hplace] at e
          cases e
      readers := h.readers.leave (by simp [hcounted])
      rcValue := h.rcValue
      writeValue := h.writeValue
      exclusive := h.exclusive
      count := by
        have hcard := h.readers.card_leave hmem
        have hcount := h.count
        show c.shared.readerCount - 1 = ((g.readers.erase t).card : Int)
        omega
      group := by
        rw [hgroup, hnoFirst]
        by_cases hl : p.isLast = true
        · simp [hl]
        · have hne : (g.readers.erase t).Nonempty :=
            Finset.nonempty_iff_ne_empty.mpr fun he => hl (hlast.mpr he)
          simp [hl, hne]
      emptied := by
        by_cases hl : p.isLast = true
        · exact fun _ => hlast.mp hl
        · simp [hl]
      alone := by
        intro u hu
        rw [hnoFirst] at hu
        cases hu }

/-- The step leaves the two functions alone. -/
theorem outside (h : RwInv g c) (hown : c'.own = c.own)
    (hvalue : ∀ s, rwReserved.sem s = true → c'.value s = c.value s)
    (hshared : c'.shared = c.shared) : RwInv g c' :=
  { h with
    own := fun t => by rw [hown, h.own]
    rcValue := (hvalue _ rfl).trans h.rcValue
    writeValue := (hvalue _ rfl).trans h.writeValue
    count := by rw [hshared, h.count] }

/-- A thread calls `read` or `write`, or goes on with an iteration. -/
theorem call {s : Sched} {i : ReadWrite} {r : ReadWriteData × List (Call ReadWrite)}
    (h : RwInv g c) (hown : c.own t = []) (hi : rwReserved.entry i = true)
    (hexec : readWrite.exec s i c.shared = some r) :
    ∃ g', RwInv g' ({ c with shared := r.1 }.setOwn t
      (rwReserved.inner (synchCode (r.2.map Instr.call)))) := by
  have hplace : g.place t = .out := RwPlace.eq_out_of_code ((h.own t).symm.trans hown)
  have hglide : ∀ p : RwPlace, p.inRc = false → p.marks = RwPlace.out.marks →
      ∃ g', RwInv g' ({ c with shared := c.shared }.setOwn t p.code) := by
    intro p hinRc hmarks
    exact ⟨_, h.glide rfl rfl rfl (by rw [hplace, hinRc]; rfl) (by rw [hplace, hmarks])⟩
  cases i with
  | read n =>
      cases n with
      | zero =>
          cases hexec
          exact hglide .out rfl rfl
      | succ n =>
          cases hexec
          exact hglide (.entering n) rfl rfl
  | write n =>
      cases n with
      | zero =>
          cases hexec
          exact hglide .out rfl rfl
      | succ n =>
          cases hexec
          exact hglide (.arriving n) rfl rfl
  | _ => cases hi

/-- A thread executes an instruction of the two functions. -/
theorem execute {i : Instr ReadWrite} {own : List (Instr ReadWrite)} (h : RwInv g c)
    (hown : c.own t = i :: own) (hexec : Config.Executes rwReserved readWrite t c own c' i) :
    ∃ g', RwInv g' c' := by
  have hcode := (h.own t).symm.trans hown
  cases hplace : g.place t with
  | out =>
      rw [hplace] at hcode
      cases hcode
  | entering n =>
      rw [hplace] at hcode
      cases hcode
      obtain ⟨hvalue, rfl⟩ := hexec
      exact ⟨_, h.takeRc (p := .counting n) hvalue rfl (by rw [hplace]; rfl)⟩
  | counting n =>
      rw [hplace] at hcode
      cases hcode
      obtain ⟨s, r, _, hr, rfl⟩ := hexec
      have hempty : c.shared.readerCount + 1 = 1 ↔ g.readers = ∅ := by
        rw [h.count, ← Finset.card_eq_zero]
        omega
      by_cases hfirst : c.shared.readerCount + 1 = 1
      · simp only [readWrite, if_pos hfirst, Option.some.injEq] at hr
        subst hr
        exact h.enter (p := .first n) hplace rfl rfl rfl rfl
          ⟨fun _ => hempty.mp hfirst, fun _ => rfl⟩ rfl
      · simp only [readWrite, if_neg hfirst, Option.some.injEq] at hr
        subst hr
        exact h.enter (p := .opening n) hplace rfl rfl rfl rfl
          ⟨nofun, fun he => absurd (hempty.mpr he) hfirst⟩ rfl
  | first n =>
      rw [hplace] at hcode
      cases hcode
      obtain ⟨hvalue, rfl⟩ := hexec
      exact ⟨_, h.takeFirst hplace hvalue⟩
  | opening n =>
      rw [hplace] at hcode
      cases hcode
      cases hexec
      exact ⟨_, h.releaseRc (p := .reading n) (by rw [hplace]; rfl) rfl (by rw [hplace]; rfl)⟩
  | reading n =>
      rw [hplace] at hcode
      cases hcode
      obtain ⟨s, r, _, hr, rfl⟩ := hexec
      cases hr
      exact ⟨_, h.glide (p := .leaving n) rfl rfl rfl (by rw [hplace]; rfl) (by rw [hplace]; rfl)⟩
  | leaving n =>
      rw [hplace] at hcode
      cases hcode
      obtain ⟨hvalue, rfl⟩ := hexec
      exact ⟨_, h.takeRc (p := .uncounting n) hvalue rfl (by rw [hplace]; rfl)⟩
  | uncounting n =>
      rw [hplace] at hcode
      cases hcode
      obtain ⟨s, r, _, hr, rfl⟩ := hexec
      have hempty : c.shared.readerCount - 1 = 0 ↔ g.readers.erase t = ∅ := by
        have hcard := h.readers.card_leave (t := t) (by rw [hplace]; rfl)
        rw [h.count, ← Finset.card_eq_zero]
        omega
      by_cases hlast : c.shared.readerCount - 1 = 0
      · simp only [readWrite, if_pos hlast, Option.some.injEq] at hr
        subst hr
        exact h.leave (p := .last) hplace rfl rfl rfl rfl
          ⟨fun _ => hempty.mp hlast, fun _ => rfl⟩ rfl
      · simp only [readWrite, if_neg hlast, Option.some.injEq] at hr
        subst hr
        exact h.leave (p := .closing) hplace rfl rfl rfl rfl
          ⟨nofun, fun he => absurd (hempty.mpr he) hlast⟩ rfl
  | last =>
      rw [hplace] at hcode
      cases hcode
      cases hexec
      exact ⟨_, h.releaseLast hplace⟩
  | closing =>
      rw [hplace] at hcode
      cases hcode
      cases hexec
      exact ⟨_, h.releaseRc (p := .out) (by rw [hplace]; rfl) rfl (by rw [hplace]; rfl)⟩
  | arriving n =>
      rw [hplace] at hcode
      cases hcode
      obtain ⟨hvalue, rfl⟩ := hexec
      exact ⟨_, h.takeWrite hplace hvalue⟩
  | writing n =>
      rw [hplace] at hcode
      cases hcode
      obtain ⟨s, r, _, hr, rfl⟩ := hexec
      cases hr
      exact ⟨_, h.glide (p := .written) rfl rfl rfl (by rw [hplace]; rfl) (by rw [hplace]; rfl)⟩
  | written =>
      rw [hplace] at hcode
      cases hcode
      cases hexec
      exact ⟨_, h.releaseWrite hplace⟩

/-- Every step keeps the invariant. -/
theorem step (h : RwInv g c) (hstep : Config.Step rwReserved readWrite t c c') :
    ∃ g', RwInv g' c' := by
  cases hstep with
  | outside hown hvalue hqueue hshared => exact ⟨g, h.outside hown hvalue hshared⟩
  | enter s hown hi hs hexec => exact h.call hown hi hexec
  | exec hown hexec => exact h.execute hown hexec
  | @device d r hexec => exact d.elim

end RwInv

/-! ## Readers and writers in the kernel -/

namespace Kernel

/-- The thread is at a place of the protocol. -/
def AtPlace (k : Kernel ReadWrite ReadWriteData) (t : ThreadPtr) (p : RwPlace) : Prop :=
  (k.config rwReserved).own t = p.code

instance (k : Kernel ReadWrite ReadWriteData) (t : ThreadPtr) (p : RwPlace) :
    Decidable (k.AtPlace t p) :=
  inferInstanceAs (Decidable (_ = _))

/-- The thread is in its reading section: it has released `rcLock` after counting
itself, and has not acquired it again. -/
def Reading (k : Kernel ReadWrite ReadWriteData) (t : ThreadPtr) : Prop :=
  ∃ i, k.AtPlace t (.reading i) ∨ k.AtPlace t (.leaving i)

/-- The thread is a writer that has acquired `writeLock` and not released it. -/
def Writing (k : Kernel ReadWrite ReadWriteData) (t : ThreadPtr) : Prop :=
  (∃ i, k.AtPlace t (.writing i)) ∨ k.AtPlace t .written

/-- Readers and writers exclude each other, and `readerCount` and `writeLock` say
how many readers there are. -/
structure ReadersWriter (k : Kernel ReadWrite ReadWriteData) : Prop where
  /-- While a thread writes, no thread reads and no other thread writes. -/
  exclusion : ∀ t, k.Writing t → (∀ u, ¬k.Reading u) ∧ ∀ u, k.Writing u → u = t
  /-- While `rcLock` is free, `readerCount` is the number of readers. -/
  count : k.value (.lock rcLock) ≠ 0 → 0 ≤ k.shared.readerCount ∧
    ∃ readers : Finset ThreadPtr, (∀ t, t ∈ readers ↔ k.Reading t) ∧
      k.shared.readerCount = readers.card
  /-- While `rcLock` is free, `writeLock` is taken and not by a writer exactly if
  there are readers. -/
  group : k.value (.lock rcLock) ≠ 0 →
    (k.value (.lock writeLock) = 0 ∧ (∀ t, ¬k.Writing t) ↔ 0 < k.shared.readerCount)

section Places

variable {g : RwGhost} {k : Kernel ReadWrite ReadWriteData} {t : ThreadPtr}

theorem atPlace_iff (h : RwInv g (k.config rwReserved)) {p : RwPlace} :
    k.AtPlace t p ↔ g.place t = p := by
  rw [AtPlace, h.own]
  exact ⟨RwPlace.code_injective, fun e => by rw [e]⟩

theorem reading_iff (h : RwInv g (k.config rwReserved)) :
    k.Reading t ↔ (g.place t).counted = true ∧ (g.place t).inRc = false := by
  simp only [Reading, atPlace_iff h]
  cases g.place t <;> simp [RwPlace.counted, RwPlace.inRc]

theorem writing_iff (h : RwInv g (k.config rwReserved)) :
    k.Writing t ↔ (g.place t).inWrite = true := by
  simp only [Writing, atPlace_iff h]
  cases g.place t <;> simp [RwPlace.inWrite]

/-- While `rcLock` is free, nobody is between counting and releasing it. -/
theorem notInRc_of_value (h : RwInv g (k.config rwReserved))
    (hfree : k.value (.lock rcLock) ≠ 0) :
    (∀ t, (g.place t).inRc = false) ∧ g.first = none ∧ g.last = none := by
  have hnone : g.counter = none := by
    by_contra hsome
    have hvalue : k.value (.lock rcLock) = _ := h.rcValue
    rw [if_neg hsome] at hvalue
    exact hfree hvalue
  have hout : ∀ t, (g.place t).inRc = false := by
    intro t
    by_contra hin
    have hholder := h.counter.holder_eq (t := t) (eq_true_of_ne_false hin)
    rw [hnone] at hholder
    cases hholder
  refine ⟨hout, ?_, ?_⟩
  · cases hfirst : g.first with
    | none => rfl
    | some u =>
        have hin := RwPlace.inRc_of_isFirst ((h.first u).mpr hfirst)
        rw [hout u] at hin
        cases hin
  · cases hlast : g.last with
    | none => rfl
    | some u =>
        have hin := RwPlace.inRc_of_isLast ((h.last u).mpr hlast)
        rw [hout u] at hin
        cases hin

theorem readersWriter_of_inv (h : RwInv g (k.config rwReserved)) : k.ReadersWriter where
  exclusion t ht := by
    have hwriter : g.writer = some t := h.writer.holder_eq ((writing_iff h).mp ht)
    refine ⟨fun u hu => ?_, fun u hu => h.writer.unique ((writing_iff h).mp hu)
      ((writing_iff h).mp ht)⟩
    obtain ⟨hcounted, hout⟩ := (reading_iff h).mp hu
    have hmem : u ∈ g.readers := (h.readers u).mpr hcounted
    have hgroup : g.group = false := h.exclusive.resolve_left (by simp [hwriter])
    cases hfirst : g.first with
    | none =>
        rw [h.group.mpr (Or.inr ⟨hfirst, u, hmem⟩)] at hgroup
        cases hgroup
    | some w =>
        -- The first reader is alone, and it has not come to its reading section.
        rw [h.alone w hfirst, Finset.mem_singleton] at hmem
        rw [hmem, RwPlace.inRc_of_isFirst ((h.first w).mpr hfirst)] at hout
        cases hout
  count hfree := by
    obtain ⟨hout, _, _⟩ := notInRc_of_value h hfree
    have hcount : k.shared.readerCount = g.readers.card := h.count
    refine ⟨by omega, g.readers, fun t => ?_, hcount⟩
    rw [reading_iff h, h.readers t]
    exact ⟨fun hcounted => ⟨hcounted, hout t⟩, fun hreading => hreading.1⟩
  group hfree := by
    obtain ⟨_, hfirst, hlast⟩ := notInRc_of_value h hfree
    have hcount : k.shared.readerCount = g.readers.card := h.count
    have hvalue : k.value (.lock writeLock) = _ := h.writeValue
    have hgroup : g.group = true ↔ g.readers.Nonempty := by
      rw [h.group, hfirst, hlast]
      simp
    have hpositive : 0 < k.shared.readerCount ↔ g.group = true := by
      rw [hgroup, hcount, ← Finset.card_pos]
      omega
    have hwriter : (∀ t, ¬k.Writing t) ↔ g.writer = none := by
      constructor
      · intro hnone
        cases hw : g.writer with
        | none => rfl
        | some u => exact absurd ((writing_iff h).mpr ((h.writer u).mpr hw)) (hnone u)
      · intro hnone t ht
        have hsome := h.writer.holder_eq ((writing_iff h).mp ht)
        rw [hnone] at hsome
        cases hsome
    rw [hpositive, hwriter, hvalue]
    constructor
    · intro ⟨hzero, hnone⟩
      by_contra hfalse
      rw [if_pos ⟨hnone, eq_false_of_ne_true hfalse⟩] at hzero
      cases hzero
    · intro htrue
      have hnone : g.writer = none := h.exclusive.resolve_right (by simp [htrue])
      exact ⟨by rw [if_neg (by simp [htrue])], hnone⟩

end Places

/-- Nobody has called `read` or `write` yet. -/
theorem rwInv_init (initialValue : Nat → Int) (holding : Nat → Option ThreadPtr)
    (content : Int) :
    ∃ g, RwInv g ((init initialValue holding ⟨0, content, []⟩ :
      Kernel ReadWrite ReadWriteData).config rwReserved) := by
  refine ⟨⟨fun _ => .out, none, none, none, none, ∅, false⟩, ?_⟩
  exact
    { own := fun _ => rfl
      counter := fun _ => ⟨nofun, nofun⟩
      writer := fun _ => ⟨nofun, nofun⟩
      first := fun _ => ⟨nofun, nofun⟩
      last := fun _ => ⟨nofun, nofun⟩
      readers := fun t => ⟨fun ht => absurd ht (Finset.notMem_empty t), nofun⟩
      rcValue := rfl
      writeValue := rfl
      exclusive := Or.inl rfl
      count := rfl
      group := by simp
      emptied := fun _ => rfl
      alone := nofun }

/-- In every run of threads that call `read` and `write` for any number of
iterations, readers and writers exclude each other. -/
theorem readers_writer_exclusion (initialValue : Nat → Int)
    (holding : Nat → Option ThreadPtr) (content : Int) (as : List (Action ReadWrite Empty))
    (k : Kernel ReadWrite ReadWriteData)
    (hok : Along (step readWrite) (fun k a => k.ForkOnce a ∧ OutsideStart rwReserved a)
      (init initialValue holding ⟨0, content, []⟩) as)
    (hrun : run (step readWrite) (init initialValue holding ⟨0, content, []⟩) as = some k) :
    k.ReadersWriter := by
  obtain ⟨g, hg⟩ := config_invariant (I := fun c => ∃ g, RwInv g c)
    (fun t c c' h hstep => h.elim fun g hg => hg.step hstep) (control_init _ _ _)
    (rwInv_init initialValue holding content) hok hrun
  exact readersWriter_of_inv hg

/-- Two readers and a writer.  The timer interrupts the first reader in its
reading section. -/
def twoReaders (n : Nat) : List (Action ReadWrite Empty) :=
  .start [.newThread 255, .newThread 255, .newThread 255, .fork 1 (.read 5), .fork 2 (.read 5),
    .fork 3 (.write 5), .yield] :: List.replicate 27 .exec ++ .timer :: List.replicate n .exec

/-- Both readers read. -/
theorem readers_writer_exclusion_two : ∃ k : Kernel ReadWrite ReadWriteData,
    run (step readWrite) (init (fun _ => 0) (fun _ => none) ⟨0, 0, []⟩) (twoReaders 11) =
      some k ∧ k.Reading 1 ∧ k.Reading 2 ∧ k.shared.readerCount = 2 ∧ k.ReadersWriter :=
  ⟨_, rfl, ⟨4, Or.inl rfl⟩, ⟨4, Or.inl rfl⟩, rfl,
    readers_writer_exclusion (fun _ => 0) (fun _ => none) 0 (twoReaders 11) _ (by decide) rfl⟩

end Kernel

end Nachos.Threads

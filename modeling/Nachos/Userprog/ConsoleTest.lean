import Nachos.Lib.Occupancy
import Nachos.Machine.Disk
import Nachos.Threads.Protocol

/-!
# The console: `machine/console.cc` and `ConsoleTest`

The console has a buffer of one character, `incoming`, and the value `EOF` in it
means that it is empty.  `EOF` is -1 and `incoming` is a `char`, so the byte `0xff`
in the buffer looks like an empty buffer: the next poll reads another character
over it, and calls the handler once more.

`consoleTest` is the loop of `ConsoleTest` as a program of the kernel, with the two
interrupts of the console.  When they come is left open, and so is whether a poll
finds that the next key has been typed already.  All other code leaves the two
semaphores alone.

`returned`, `buffered` and `overwritten` are the history: what `GetChar` has
returned, whether a character has come that has not been fetched, and whether such a
character has been overwritten.

`Kept` says which streams are safe.  It follows the loop: `0xff` may only be the last
key that is typed, up to the key after the first `q`, at which nobody looks any
more.
-/

namespace Nachos.Userprog

open Function Lib Machine Threads

/-! ## The console -/

/-- `EOF` as a `char`. -/
def EOF : Byte := 0xff

/-- `class Console`. -/
structure Console where
  incoming : Byte
  putBusy : Bool
  /-- The keys that have not been read. -/
  keyboard : List Byte
  display : List Byte
  /-- The `ConsoleWriteDone` interrupts that are scheduled. -/
  scheduled : Nat

namespace Console

def new (typed : List Byte) : Console where
  incoming := EOF
  putBusy := false
  keyboard := typed
  display := []
  scheduled := 0

/-- `Console::CheckCharAvail`.  `polled` is what `PollFile` returns, and the second
result says whether `readHandler` is called. -/
def checkCharAvail (c : Console) (polled : Bool) : Option (Console × Bool) :=
  if c.incoming ≠ EOF ∨ polled = false then some (c, false)
  else
    match c.keyboard with
    | [] => none
    | key :: keyboard => some ({ c with incoming := key, keyboard := keyboard }, true)

/-- `Console::GetChar`. -/
def getChar (c : Console) : Byte × Console := (c.incoming, { c with incoming := EOF })

/-- `Console::PutChar`. -/
def putChar (c : Console) (ch : Byte) : Option Console :=
  if c.putBusy then none
  else some { c with putBusy := true, display := c.display ++ [ch], scheduled := c.scheduled + 1 }

/-- `Console::WriteDone`, when an interrupt is scheduled. -/
def writeDone (c : Console) : Option Console :=
  if c.scheduled = 0 then none
  else some { c with putBusy := false, scheduled := c.scheduled - 1 }

end Console

/-! ## `ConsoleTest` -/

/-- The semaphore `readAvail`. -/
def readAvail : Nat := 0

/-- The semaphore `writeDone`. -/
def writeDone : Nat := 1

inductive ConsoleCode where
  | consoleTest
  /-- `GetChar` and `PutChar`. -/
  | echo
  /-- `if (ch == 'q') return;`, and the next round. -/
  | next (ch : Byte)

inductive ConsoleInterrupt where
  | readPoll (polled : Bool)
  | writeDone

/-- The console and the history. -/
structure ConsoleData where
  console : Console
  started : Bool
  returned : List Byte
  buffered : Bool
  overwritten : Bool

namespace ConsoleData

/-- `typed` are the keys of the whole run. -/
def start (typed : List Byte) : ConsoleData where
  console := .new typed
  started := false
  returned := []
  buffered := false
  overwritten := false

/-- A poll, with the `V` of `ReadAvail`. -/
def poll (x : ConsoleData) (polled : Bool) : Option (ConsoleData × List Nat) :=
  (x.console.checkCharAvail polled).map fun y =>
    if y.2 then
      ({ x with
          console := y.1, buffered := true, overwritten := x.overwritten || x.buffered },
        [readAvail])
    else ({ x with console := y.1 }, [])

/-- The character is fetched and echoed. -/
def echo (x : ConsoleData) : Option (Byte × ConsoleData) :=
  let (ch, console) := x.console.getChar
  (console.putChar ch).map fun console =>
    (ch, { x with console := console, returned := x.returned ++ [ch], buffered := false })

end ConsoleData

/-- The calls at the start of a round. -/
def awaitKey : List (Call ConsoleCode) := [.p readAvail, .client .echo]

/-- `ConsoleTest` and the interrupts of its console.  It is called once. -/
def consoleTest : Program ConsoleCode ConsoleData ConsoleInterrupt where
  exec _ i x :=
    match i with
    | .consoleTest => if x.started then none else some ({ x with started := true }, awaitKey)
    | .echo => x.echo.map fun y => (y.2, [.p writeDone, .client (.next y.1)])
    | .next ch => some (x, if ch = 0x71 then [] else awaitKey)
  handler d x :=
    if x.started then
      match d with
      | .readPoll polled => x.poll polled
      | .writeDone => x.console.writeDone.map fun c => ({ x with console := c }, [writeDone])
    else none

/-- The semaphores belong to `ConsoleTest`. -/
def consoleReserved : Reserved ConsoleCode where
  sem s := s == .sem readAvail || s == .sem writeDone
  cond _ := false
  entry
    | .consoleTest => true
    | _ => false

/-! ## The streams -/

/-- No `0xff` among the keys is followed by another key, as far as the loop gets.
After a `q` one more key is read. -/
def Kept : List Byte → Prop
  | [] => True
  | [_] => True
  | key :: key' :: keys =>
      key ≠ EOF ∧ if key = 0x71 then key' = EOF → keys = [] else Kept (key' :: keys)

/-- What `GetChar` has returned is a part of what has been typed, and no character
has been overwritten. -/
structure InputKept (typed : List Byte) (x : ConsoleData) : Prop where
  returned : x.returned <+: typed
  overwritten : x.overwritten = false

theorem Kept.tail {key : Byte} {keys : List Byte} (h : Kept (key :: keys)) (hkey : key ≠ 0x71) :
    Kept keys := by
  cases keys with
  | nil => trivial
  | cons key' keys =>
      have hnext := h.2
      rwa [if_neg hkey] at hnext

theorem not_kept_eof (key : Byte) (keys : List Byte) : ¬Kept (EOF :: key :: keys) :=
  fun h => h.1 rfl

/-- Also not behind another key. -/
theorem not_kept_cons_eof (key key' : Byte) (keys : List Byte) :
    ¬Kept (key :: EOF :: key' :: keys) := by
  intro h
  by_cases hkey : key = 0x71
  · have hnext := h.2
    rw [if_pos hkey] at hnext
    cases hnext rfl
  · exact not_kept_eof key' keys (h.tail hkey)

/-! ## The input -/

/-- What has been typed and not been fetched. -/
def ConsoleData.pending (x : ConsoleData) : List Byte :=
  (if x.buffered then [x.console.incoming] else []) ++ x.console.keyboard

/-- The input so far is right.  `last` is the key of the round in which `ConsoleTest`
is, if it has fetched it, or of its last round. -/
structure InputInv (typed : List Byte) (last : Option Byte) (x : ConsoleData) : Prop where
  stream : typed = x.returned ++ x.pending
  kept : Kept (last.toList ++ x.pending)
  empty : x.buffered = false → x.console.incoming = EOF
  overwritten : x.overwritten = false

namespace InputInv

variable {typed : List Byte} {last : Option Byte} {x x' : ConsoleData}

theorem congr (h : InputInv typed last x) (hreturned : x'.returned = x.returned)
    (hbuffered : x'.buffered = x.buffered) (hoverwritten : x'.overwritten = x.overwritten)
    (hincoming : x'.console.incoming = x.console.incoming)
    (hkeyboard : x'.console.keyboard = x.console.keyboard) : InputInv typed last x' := by
  have hpending : x'.pending = x.pending := by
    rw [ConsoleData.pending, hbuffered, hincoming, hkeyboard]
    rfl
  constructor
  · rw [hreturned, hpending, ← h.stream]
  · rw [hpending]
    exact h.kept
  · rw [hbuffered, hincoming]
    exact h.empty
  · rw [hoverwritten]
    exact h.overwritten

/-- A poll does nothing, or it fills an empty buffer. -/
theorem poll (h : InputInv typed last x) {polled : Bool} {vs : List Nat}
    (hpoll : x.poll polled = some (x', vs)) :
    (x' = x ∧ vs = []) ∨
      (x.buffered = false ∧ x'.buffered = true ∧ x'.started = x.started ∧ vs = [readAvail] ∧
        InputInv typed last x') := by
  obtain ⟨⟨c, called⟩, hcheck, hx'⟩ := Option.map_eq_some_iff.mp hpoll
  simp only [Console.checkCharAvail] at hcheck
  split at hcheck
  · cases hcheck
    cases hx'
    exact Or.inl ⟨rfl, rfl⟩
  · rename_i hread
    have heof : x.console.incoming = EOF := by
      by_contra hne
      exact hread (Or.inl hne)
    split at hcheck
    · cases hcheck
    · rename_i key keyboard hkeyboard
      cases hcheck
      cases hx'
      have hbuffered : x.buffered = false := by
        by_contra hbuffered
        have hpending : x.pending = EOF :: key :: keyboard := by
          rw [ConsoleData.pending, if_pos (eq_true_of_ne_false hbuffered), heof, hkeyboard]
          rfl
        have hkept := h.kept
        rw [hpending] at hkept
        cases last with
        | none => exact not_kept_eof key keyboard hkept
        | some ch => exact not_kept_cons_eof ch key keyboard hkept
      have hpending : x.pending = key :: keyboard := by
        rw [ConsoleData.pending, hbuffered, hkeyboard]
        rfl
      refine Or.inr ⟨hbuffered, rfl, rfl, rfl, ?_, ?_, nofun, ?_⟩
      · exact h.stream.trans (by rw [hpending]; rfl)
      · have hkept := h.kept
        rwa [hpending] at hkept
      · show (x.overwritten || x.buffered) = false
        rw [h.overwritten, hbuffered]
        rfl

/-- The character in the buffer is fetched. -/
theorem echo (h : InputInv typed none x) (hbuffered : x.buffered = true) {ch : Byte}
    (hecho : x.echo = some (ch, x')) :
    x'.buffered = false ∧ x'.started = x.started ∧ InputInv typed (some ch) x' := by
  obtain ⟨c, hput, hx'⟩ := Option.map_eq_some_iff.mp hecho
  simp only [Console.putChar] at hput
  split at hput
  · cases hput
  · cases hput
    cases hx'
    have hpending : x.pending = x.console.incoming :: x.console.keyboard := by
      rw [ConsoleData.pending, if_pos hbuffered]
      rfl
    refine ⟨rfl, rfl, ?_, ?_, fun _ => rfl, h.overwritten⟩
    · rw [h.stream, hpending]
      show _ = (x.returned ++ [x.console.incoming]) ++ x.console.keyboard
      rw [List.append_assoc]
      rfl
    · have hkept := h.kept
      rwa [hpending] at hkept

end InputInv

/-! ## The invariant -/

/-- The places of the thread in `ConsoleTest`. -/
inductive ReaderPlace where
  | out
  | waiting
  | echoing
  | writing (ch : Byte)
  | looping (ch : Byte)

/-- The character in the buffer: there is none; thread `t` executes the handler and
has not come to the `V`; the `V` is done; `ConsoleTest` has passed its `P`. -/
inductive InputPhase where
  | empty
  | undone (t : ThreadPtr)
  | notified
  | taken
  deriving DecidableEq

namespace ReaderPlace

/-- What the thread still has to do up to the next round. -/
def code : ReaderPlace → List (Instr ConsoleCode)
  | .out => []
  | .waiting => [.call (.p readAvail), .call (.client .echo)]
  | .echoing => [.call (.client .echo)]
  | .writing ch => [.call (.p writeDone), .call (.client (.next ch))]
  | .looping ch => [.call (.client (.next ch))]

/-- The place goes with the phase of the input and the last key that has been
fetched. -/
def Fits (phase : InputPhase) (last : Option Byte) : ReaderPlace → Prop
  | .out => True
  | .waiting => last = none
  | .echoing => last = none ∧ phase = .taken
  | .writing ch => last = some ch
  | .looping ch => last = some ch

/-- The phase only matters to a thread that has passed its `P`. -/
theorem Fits.phase {p : ReaderPlace} {phase phase' : InputPhase} {last : Option Byte}
    (h : p.Fits phase last) (hphase : phase ≠ .taken) : p.Fits phase' last := by
  cases p with
  | echoing => exact absurd h.2 hphase
  | _ => exact h

end ReaderPlace

theorem readAvail_ne_writeDone : SemId.sem readAvail ≠ .sem writeDone := by decide

theorem inputUndone_injective : Injective InputPhase.undone := fun _ _ => InputPhase.undone.inj

/-- Where the threads are and how far the input is. -/
structure ConsoleGhost where
  place : ThreadPtr → ReaderPlace
  /-- The `V` operations of handlers that a thread still has to do. -/
  vs : ThreadPtr → List Nat
  /-- The thread in `ConsoleTest`. -/
  reader : Option ThreadPtr
  phase : InputPhase
  last : Option Byte

structure ConsoleInv (typed : List Byte) (g : ConsoleGhost) (c : Config ConsoleCode ConsoleData) :
    Prop where
  own : ∀ t, c.own t = handled (g.vs t) (g.place t).code
  reader : Sole (fun p => p ≠ .out) g.place g.reader
  fresh : c.shared.started = false → g.reader = none ∧ g.last = none
  semValue : c.value (.sem readAvail) = if g.phase = .notified then 1 else 0
  undone : ∀ t, (g.vs t).count readAvail = if g.phase = .undone t then 1 else 0
  fits : ∀ t, (g.place t).Fits g.phase g.last
  buffered : c.shared.buffered = true ↔ g.phase ≠ .empty
  input : InputInv typed g.last c.shared

namespace ConsoleInv

variable {typed : List Byte} {g : ConsoleGhost} {c c' : Config ConsoleCode ConsoleData}
  {t : ThreadPtr} {p : ReaderPlace} {ch : Byte}

theorem own_move (h : ConsoleInv typed g c) (hvs : g.vs t = [])
    (hown : c'.own = update c.own t p.code) (u : ThreadPtr) :
    c'.own u = handled (g.vs u) (update g.place t p u).code := by
  rw [hown]
  exact handled_move h.own hvs p u

/-- There is one reader. -/
theorem fits_move (h : ConsoleInv typed g c) (ht : g.reader = none ∨ g.place t ≠ .out)
    {phase : InputPhase} {last : Option Byte} (hp : p.Fits phase last) (u : ThreadPtr) :
    (update g.place t p u).Fits phase last := by
  by_cases hut : u = t
  · rw [hut, update_self]
    exact hp
  · have hout : g.place u = .out := by
      by_contra hu
      have hsome := h.reader.holder_eq hu
      rcases ht with hnone | ht
      · rw [hnone] at hsome
        cases hsome
      · exact hut (h.reader.unique hu ht)
    rw [update_of_ne hut, hout]
    trivial

/-- `ConsoleTest` is called. -/
theorem enter (h : ConsoleInv typed g c) (hvs : g.vs t = [])
    (hstarted : c.shared.started = false)
    (hown : c'.own = update c.own t ReaderPlace.waiting.code) (hvalue : c'.value = c.value)
    (hshared : c'.shared = { c.shared with started := true }) :
    ConsoleInv typed { g with place := update g.place t .waiting, reader := some t } c' := by
  obtain ⟨hreader, hlast⟩ := h.fresh hstarted
  have hsole := h.reader
  rw [hreader] at hsole
  exact
    { h with
      own := h.own_move hvs hown
      reader := hsole.enter nofun
      fresh := by
        rw [hshared]
        exact nofun
      semValue := by rw [hvalue, h.semValue]
      fits := h.fits_move (Or.inl hreader) hlast
      buffered := by
        rw [hshared]
        exact h.buffered
      input := by
        rw [hshared]
        exact h.input.congr rfl rfl rfl rfl rfl }

/-- `ConsoleTest` passes the `P` on `readAvail`. -/
theorem notified (h : ConsoleInv typed g c) (hvs : g.vs t = []) (hplace : g.place t = .waiting)
    (hvalue : c.value (.sem readAvail) ≠ 0) :
    ConsoleInv typed { g with place := update g.place t .echoing, phase := .taken }
      ((c.take (.sem readAvail)).setOwn t ReaderPlace.echoing.code) := by
  have hphase : g.phase = .notified := by
    by_contra hnot
    rw [h.semValue, if_neg hnot] at hvalue
    exact hvalue rfl
  have hin : g.place t ≠ .out := hplace ▸ nofun
  have hfits := h.fits t
  have hsem := h.semValue
  rw [hplace] at hfits
  rw [hphase] at hsem
  exact
    { h with
      own := h.own_move hvs rfl
      reader := h.reader.stay (iff_of_true nofun hin)
      semValue := by
        show (c.take (.sem readAvail)).value (.sem readAvail) = 0
        rw [Config.take_self, hsem]
        rfl
      undone := fun u => by
        rw [h.undone u, hphase]
        rfl
      fits := h.fits_move (Or.inr hin) ⟨hfits, rfl⟩
      buffered := by
        refine h.buffered.trans ?_
        rw [hphase]
        exact iff_of_true nofun nofun }

/-- `ConsoleTest` fetches the character. -/
theorem echo (h : ConsoleInv typed g c) (hvs : g.vs t = []) (hplace : g.place t = .echoing)
    {x : ConsoleData} (hecho : c.shared.echo = some (ch, x))
    (hown : c'.own = update c.own t (ReaderPlace.writing ch).code) (hvalue : c'.value = c.value)
    (hshared : c'.shared = x) :
    ConsoleInv typed
      { g with place := update g.place t (.writing ch), phase := .empty, last := some ch } c' := by
  have hfits := h.fits t
  rw [hplace] at hfits
  obtain ⟨hlast, hphase⟩ := hfits
  have hinput := h.input
  rw [hlast] at hinput
  have hbuffered : c.shared.buffered = true := h.buffered.mpr (by rw [hphase]; exact nofun)
  obtain ⟨hempty, hstarted, hinput'⟩ := hinput.echo hbuffered hecho
  have hsem := h.semValue
  rw [hphase] at hsem
  have hin : g.place t ≠ .out := hplace ▸ nofun
  have hreader : g.reader = some t := h.reader.holder_eq hin
  exact
    { own := h.own_move hvs hown
      reader := h.reader.stay (iff_of_true nofun hin)
      fresh := fun hnot => by
        rw [hshared, hstarted] at hnot
        have hnone := (h.fresh hnot).1
        rw [hreader] at hnone
        cases hnone
      semValue := by
        rw [hvalue, hsem]
        rfl
      undone := fun u => by
        rw [h.undone u, hphase]
        rfl
      fits := h.fits_move (Or.inr hin) rfl
      buffered := by
        rw [hshared, hempty]
        exact iff_of_false nofun fun hne => hne rfl
      input := by
        rw [hshared]
        exact hinput' }

/-- `ConsoleTest` passes the `P` on `writeDone`. -/
theorem written (h : ConsoleInv typed g c) (hvs : g.vs t = []) (hplace : g.place t = .writing ch) :
    ConsoleInv typed { g with place := update g.place t (.looping ch) }
      ((c.take (.sem writeDone)).setOwn t (ReaderPlace.looping ch).code) := by
  have hin : g.place t ≠ .out := hplace ▸ nofun
  have hfits := h.fits t
  rw [hplace] at hfits
  exact
    { h with
      own := h.own_move hvs rfl
      reader := h.reader.stay (iff_of_true nofun hin)
      semValue := (Config.take_of_ne readAvail_ne_writeDone c).trans h.semValue
      fits := h.fits_move (Or.inr hin) hfits }

/-- The next round. -/
theorem again (h : ConsoleInv typed g c) (hvs : g.vs t = []) (hplace : g.place t = .looping ch)
    (hch : ch ≠ 0x71) (hown : c'.own = update c.own t ReaderPlace.waiting.code)
    (hvalue : c'.value = c.value) (hshared : c'.shared = c.shared) :
    ConsoleInv typed { g with place := update g.place t .waiting, last := none } c' := by
  have hin : g.place t ≠ .out := hplace ▸ nofun
  have hlast := h.fits t
  rw [hplace] at hlast
  have hkept := h.input.kept
  rw [show g.last = some ch from hlast] at hkept
  exact
    { own := h.own_move hvs hown
      reader := h.reader.stay (iff_of_true nofun hin)
      fresh := by
        rw [hshared]
        exact fun hnot => ⟨(h.fresh hnot).1, rfl⟩
      semValue := by rw [hvalue, h.semValue]
      undone := h.undone
      fits := h.fits_move (Or.inr hin) rfl
      buffered := by
        rw [hshared]
        exact h.buffered
      input := by
        rw [hshared]
        exact ⟨h.input.stream, hkept.tail hch, h.input.empty, h.input.overwritten⟩ }

/-- `ConsoleTest` returns. -/
theorem quit (h : ConsoleInv typed g c) (hvs : g.vs t = [])
    (hplace : g.place t = .looping ch) (hown : c'.own = update c.own t ReaderPlace.out.code)
    (hvalue : c'.value = c.value) (hshared : c'.shared = c.shared) :
    ConsoleInv typed { g with place := update g.place t .out, reader := none } c' := by
  have hin : g.place t ≠ .out := hplace ▸ nofun
  have hreader : g.reader = some t := h.reader.holder_eq hin
  have hsole := h.reader
  rw [hreader] at hsole
  exact
    { own := h.own_move hvs hown
      reader := hsole.leave fun hne => hne rfl
      fresh := by
        rw [hshared]
        exact fun hnot => ⟨rfl, (h.fresh hnot).2⟩
      semValue := by rw [hvalue, h.semValue]
      undone := h.undone
      fits := h.fits_move (Or.inr hin) trivial
      buffered := by
        rw [hshared]
        exact h.buffered
      input := by
        rw [hshared]
        exact h.input }

/-- The handler does the `V` on `readAvail`. -/
theorem post {ns : List Nat} (h : ConsoleInv typed g c) (hvs : g.vs t = readAvail :: ns) :
    ConsoleInv typed { g with vs := update g.vs t ns, phase := .notified }
      ((c.post (.sem readAvail)).setOwn t (handled ns (g.place t).code)) := by
  have hphase : g.phase = .undone t := by
    by_contra hnot
    have hcount := h.undone t
    rw [hvs, List.count_cons_self, if_neg hnot] at hcount
    cases hcount
  have hundone := h.undone
  have hsem := h.semValue
  rw [hphase] at hundone hsem
  exact
    { h with
      own := handled_update h.own ns
      semValue := by
        show (c.post (.sem readAvail)).value (.sem readAvail) = 1
        rw [Config.post_self, hsem]
        rfl
      undone := undone_lower inputUndone_injective hundone hvs
      fits := fun u => (h.fits u).phase (by rw [hphase]; exact nofun)
      buffered := by
        refine h.buffered.trans ?_
        rw [hphase]
        exact iff_of_true nofun nofun }

/-- A handler has or does a `V` on another semaphore, and does not touch the
input. -/
theorem handle {ns : List Nat} (h : ConsoleInv typed g c)
    (hcount : ns.count readAvail = (g.vs t).count readAvail)
    (hown : c'.own = update c.own t (handled ns (g.place t).code))
    (hvalue : c'.value (.sem readAvail) = c.value (.sem readAvail))
    (hstarted : c'.shared.started = c.shared.started)
    (hbuffered : c'.shared.buffered = c.shared.buffered)
    (hinput : InputInv typed g.last c'.shared) :
    ConsoleInv typed { g with vs := update g.vs t ns } c' where
  own u := by
    rw [hown]
    exact handled_update h.own ns u
  reader := h.reader
  fresh := by
    rw [hstarted]
    exact h.fresh
  semValue := by rw [hvalue, h.semValue]
  undone := undone_stay h.undone hcount
  fits := h.fits
  buffered := by
    rw [hbuffered]
    exact h.buffered
  input := hinput

/-- A character has come. -/
theorem arrived {ns : List Nat} (h : ConsoleInv typed g c)
    (hcount : ns.count readAvail = 1 + (g.vs t).count readAvail)
    (hown : c'.own = update c.own t (handled ns (g.place t).code)) (hvalue : c'.value = c.value)
    (hempty : c.shared.buffered = false) (hfull : c'.shared.buffered = true)
    (hstarted : c'.shared.started = c.shared.started)
    (hinput : InputInv typed g.last c'.shared) :
    ConsoleInv typed { g with vs := update g.vs t ns, phase := .undone t } c' := by
  have hphase : g.phase = .empty := by
    by_contra hnot
    rw [h.buffered.mpr hnot] at hempty
    cases hempty
  have hsem := h.semValue
  rw [hphase] at hsem
  exact
    { own := fun u => by
        rw [hown]
        exact handled_update h.own ns u
      reader := h.reader
      fresh := by
        rw [hstarted]
        exact h.fresh
      semValue := by
        rw [hvalue, hsem]
        rfl
      undone := undone_raise inputUndone_injective h.undone (by rw [hphase]; exact fun _ => nofun)
        hcount
      fits := fun u => (h.fits u).phase (by rw [hphase]; exact nofun)
      buffered := iff_of_true hfull nofun
      input := hinput }

/-- The step leaves the console alone. -/
theorem outside (h : ConsoleInv typed g c) (hown : c'.own = c.own)
    (hvalue : c'.value (.sem readAvail) = c.value (.sem readAvail))
    (hshared : c'.shared = c.shared) : ∃ g', ConsoleInv typed g' c' := by
  have hcount : (g.vs 0).count readAvail = (g.vs 0).count readAvail := rfl
  refine ⟨_, h.handle (t := 0) hcount ?_ hvalue ?_ ?_ ?_⟩
  · rw [hown, ← h.own 0, update_eq_self]
  · rw [hshared]
  · rw [hshared]
  · rw [hshared]
    exact h.input

/-- A thread outside calls `ConsoleTest`. -/
theorem call {s : Sched} {i : ConsoleCode} {r : ConsoleData × List (Call ConsoleCode)}
    (h : ConsoleInv typed g c) (hown : c.own t = []) (hi : consoleReserved.entry i = true)
    (hexec : consoleTest.exec s i c.shared = some r) :
    ∃ g', ConsoleInv typed g' ({ c with shared := r.1 }.setOwn t
      (consoleReserved.inner (synchCode (r.2.map Instr.call)))) := by
  have hhandled := (h.own t).symm.trans hown
  obtain ⟨hvs, _⟩ := List.append_eq_nil_iff.mp hhandled
  rw [List.map_eq_nil_iff] at hvs
  cases i with
  | consoleTest =>
      simp only [consoleTest] at hexec
      split at hexec
      · cases hexec
      · rename_i hstarted
        cases hexec
        exact ⟨_, h.enter hvs (eq_false_of_ne_true hstarted) rfl rfl rfl⟩
  | echo => cases hi
  | next ch => cases hi

/-- A thread executes code of `ConsoleTest`, with no handler before it. -/
theorem executeCode {i : Instr ConsoleCode} {own : List (Instr ConsoleCode)}
    (h : ConsoleInv typed g c) (hvs : g.vs t = []) (hcode : (g.place t).code = i :: own)
    (hexec : Config.Executes consoleReserved consoleTest t c own c' i) :
    ∃ g', ConsoleInv typed g' c' := by
  cases hplace : g.place t with
  | out =>
      rw [hplace] at hcode
      cases hcode
  | waiting =>
      rw [hplace] at hcode
      cases hcode
      obtain ⟨hvalue, rfl⟩ := hexec
      exact ⟨_, h.notified hvs hplace hvalue⟩
  | echoing =>
      rw [hplace] at hcode
      cases hcode
      obtain ⟨s, r, _, hr, rfl⟩ := hexec
      obtain ⟨⟨ch, x⟩, hecho, rfl⟩ := Option.map_eq_some_iff.mp hr
      exact ⟨_, h.echo hvs hplace hecho rfl rfl rfl⟩
  | writing ch =>
      rw [hplace] at hcode
      cases hcode
      obtain ⟨_, rfl⟩ := hexec
      exact ⟨_, h.written hvs hplace⟩
  | looping ch =>
      rw [hplace] at hcode
      cases hcode
      obtain ⟨s, r, _, hr, rfl⟩ := hexec
      cases hr
      by_cases hch : ch = 0x71
      · refine ⟨_, h.quit hvs hplace ?_ rfl rfl⟩
        rw [if_pos hch]
        rfl
      · refine ⟨_, h.again hvs hplace hch ?_ rfl rfl⟩
        rw [if_neg hch]
        rfl

/-- A thread executes code of `ConsoleTest` or of a handler. -/
theorem execute {i : Instr ConsoleCode} {own : List (Instr ConsoleCode)}
    (h : ConsoleInv typed g c) (hown : c.own t = i :: own)
    (hexec : Config.Executes consoleReserved consoleTest t c own c' i) :
    ∃ g', ConsoleInv typed g' c' := by
  rcases handled_eq_cons ((h.own t).symm.trans hown) with ⟨n, ns, hvs, rfl, rfl⟩ | ⟨hvs, hcode⟩
  · cases hexec
    by_cases hn : n = readAvail
    · rw [hn] at hvs ⊢
      exact ⟨_, h.post hvs⟩
    · refine ⟨_, h.handle ?_ rfl (Config.post_of_ne ?_ c) rfl rfl h.input⟩
      · rw [hvs, List.count_cons_of_ne hn]
      · exact fun hsem => hn (SemId.sem.inj hsem).symm
  · exact h.executeCode hvs hcode hexec

/-- A poll, or the end of an output. -/
theorem device {d : ConsoleInterrupt} {r : ConsoleData × List Nat} (h : ConsoleInv typed g c)
    (hexec : consoleTest.handler d c.shared = some r) :
    ∃ g', ConsoleInv typed g' ({ c with shared := r.1 }.setOwn t
      (consoleReserved.join (handled r.2 []) (c.own t))) := by
  obtain ⟨vs, hjoin, hcount⟩ := consoleReserved.join_handled r.2 (g.vs t) (g.place t).code
  have hcount := hcount readAvail (by decide)
  rw [h.own t, hjoin]
  simp only [consoleTest] at hexec
  split at hexec
  · cases d with
    | readPoll polled =>
        rcases h.input.poll hexec with ⟨hsame, hnil⟩ | ⟨hempty, hfull, hstarted, hone, hinput⟩
        · rw [hnil, List.count_nil, Nat.zero_add] at hcount
          refine ⟨_, h.handle hcount rfl rfl ?_ ?_ ?_⟩
          · rw [hsame]
            rfl
          · rw [hsame]
            rfl
          · rw [hsame]
            exact h.input
        · rw [hone, List.count_singleton_self] at hcount
          exact ⟨_, h.arrived hcount rfl rfl hempty hfull hstarted hinput⟩
    | writeDone =>
        obtain ⟨console, hdone, rfl⟩ := Option.map_eq_some_iff.mp hexec
        simp only [Console.writeDone] at hdone
        split at hdone
        · cases hdone
        · cases hdone
          refine ⟨_, h.handle (hcount.trans ?_) rfl rfl rfl rfl
            (h.input.congr rfl rfl rfl rfl rfl)⟩
          rw [List.count_singleton]
          exact Nat.zero_add _
  · cases hexec

/-- Every step keeps the invariant. -/
theorem step (h : ConsoleInv typed g c)
    (hstep : Config.Step consoleReserved consoleTest t c c') : ∃ g', ConsoleInv typed g' c' := by
  cases hstep with
  | outside hown hvalue hqueue hshared => exact h.outside hown (hvalue _ (by decide)) hshared
  | enter s hown hi hs hexec => exact h.call hown hi hexec
  | exec hown hexec => exact h.execute hown hexec
  | device hexec => exact h.device hexec

end ConsoleInv

/-- In every run in which the keys are `Kept`, the input is. -/
theorem inputKept_of_kept {typed : List Byte} (hkept : Kept typed)
    {holding : Nat → Option ThreadPtr} {as : List (Action ConsoleCode ConsoleInterrupt)}
    {k : Kernel ConsoleCode ConsoleData}
    (hok : Along (Kernel.step consoleTest)
      (fun k a => k.ForkOnce a ∧ Kernel.OutsideStart consoleReserved a)
      (.init (fun _ => 0) holding (.start typed)) as)
    (hrun : run (Kernel.step consoleTest) (.init (fun _ => 0) holding (.start typed)) as =
      some k) : InputKept typed k.shared := by
  have hinput : InputInv typed none (.start typed) := ⟨rfl, hkept, fun _ => rfl, rfl⟩
  have h0 : ConsoleInv typed ⟨fun _ => .out, fun _ => [], none, .empty, none⟩
      ((Kernel.init (fun _ => 0) holding (.start typed)).config consoleReserved) := by
    refine ⟨fun _ => rfl, fun t => ?_, fun _ => ⟨rfl, rfl⟩, rfl, fun _ => rfl, fun _ => trivial,
      ?_, hinput⟩
    · exact iff_of_false (fun h => h rfl) nofun
    · exact iff_of_false nofun fun h => h rfl
  obtain ⟨g, hg⟩ := Kernel.config_invariant (I := fun c => ∃ g, ConsoleInv typed g c)
    (fun _ _ _ ⟨_, hg⟩ hstep => hg.step hstep) (Kernel.control_init _ _ _) ⟨_, h0⟩ hok hrun
  refine ⟨?_, hg.input.overwritten⟩
  exact ⟨_, hg.input.stream.symm⟩

end Nachos.Userprog

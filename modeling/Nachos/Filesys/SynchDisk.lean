import Nachos.Lib.Occupancy
import Nachos.Machine.Disk
import Nachos.Threads.Protocol

/-!
# The synchronous disk: `filesys/synchdisk.cc` over `machine/disk.cc`

The disk is asynchronous: a request starts an operation, and an interrupt tells
when it is done.  There may be one request at a time.  `SynchDisk` puts a lock
around a request, and a semaphore on which the caller waits for the interrupt.

`synchDisk` is the code of `ReadSector` and `WriteSector` with the disk,
together with any program that uses them.  The program may use other
semaphores, locks and devices.  When the interrupt comes is left open; the
latency of the disk is not part of this model.

Every request has a number.  The history tells which requests have been issued,
with the bytes that were transferred, how many interrupts have come, and which
calls have returned.  `SynchDiskInv` is the invariant: the request in progress is
in one of four phases, and the thread that issued it has the lock.
-/

namespace Nachos.Filesys

open Function Lib Machine Threads

variable {ι σ η : Type}

/-! ## The disk -/

/-- The buffers of the callers.  A `char *data` is the number of one. -/
abbrev Buffers : Type := Nat → Bytes

/-- The arguments of `ReadSector` and `WriteSector`. -/
inductive SectorRequest where
  | read (sectorNumber : Int) (data : Nat)
  | write (sectorNumber : Int) (data : Nat)
  deriving DecidableEq

namespace SectorRequest

def sectorNumber : SectorRequest → Int
  | .read n _ => n
  | .write n _ => n

def data : SectorRequest → Nat
  | .read _ data => data
  | .write _ data => data

end SectorRequest

/-- `class Disk`. -/
structure DiskDevice where
  contents : Disk
  active : Bool
  /-- The `DiskDone` interrupts that are scheduled. -/
  scheduled : Nat

namespace DiskDevice

/-- The end of a request. -/
def start (d : DiskDevice) : DiskDevice :=
  { d with active := true, scheduled := d.scheduled + 1 }

/-- `Disk::ReadRequest`. -/
def readRequest (d : DiskDevice) (buffers : Buffers) (sectorNumber : Int) (data : Nat) :
    Option (DiskDevice × Buffers) :=
  if d.active then none
  else (readSector d.contents sectorNumber).map fun bytes => (d.start, update buffers data bytes)

/-- `Disk::WriteRequest`. -/
def writeRequest (d : DiskDevice) (buffers : Buffers) (sectorNumber : Int) (data : Nat) :
    Option (DiskDevice × Buffers) :=
  if d.active then none
  else (writeSector d.contents sectorNumber (buffers data)).map fun contents =>
    ({ d with contents := contents }.start, buffers)

def request (d : DiskDevice) (buffers : Buffers) : SectorRequest → Option (DiskDevice × Buffers)
  | .read n data => d.readRequest buffers n data
  | .write n data => d.writeRequest buffers n data

/-- `Disk::HandleInterrupt`, when an interrupt is scheduled. -/
def handleInterrupt (d : DiskDevice) : Option DiskDevice :=
  if d.scheduled = 0 then none
  else some { d with active := false, scheduled := d.scheduled - 1 }

end DiskDevice

/-! ## The synchronous disk -/

/-- The code of `SynchDisk`, and of a program that uses it. -/
inductive SynchDiskCode (ι : Type) where
  | readSector (sectorNumber : Int) (data : Nat)
  | writeSector (sectorNumber : Int) (data : Nat)
  /-- The call of `ReadRequest` or `WriteRequest`, under the lock. -/
  | request (r : SectorRequest)
  /-- The return to the caller of the request with this number. -/
  | returned (id : Nat)
  | user (i : ι)

/-- The disk, the data of the program and the history. -/
structure SynchDiskData (σ : Type) where
  disk : DiskDevice
  buffers : Buffers
  user : σ
  /-- The requests, with the bytes that each has read or written. -/
  issued : List (SectorRequest × Bytes)
  /-- The number of interrupts that have come. -/
  completed : Nat
  /-- The requests whose calls have returned. -/
  returned : List Nat

/-- A program that uses the synchronous disk. -/
structure DiskUser (ι σ η : Type) where
  exec : Sched → ι → Buffers × σ → Option ((Buffers × σ) × List (Threads.Call (SynchDiskCode ι)))
  handler : η → σ → Option (σ × List Nat)

/-- The interrupts: that of the disk and those of the program. -/
inductive DiskInterrupt (η : Type) where
  | diskDone
  | user (d : η)

/-- `SynchDisk` with its lock and semaphore, and its user. -/
def synchDisk (lock semaphore : Nat) (user : DiskUser ι σ η) :
    Program (SynchDiskCode ι) (SynchDiskData σ) (DiskInterrupt η) where
  exec s i x :=
    match i with
    | .readSector n data => some (x, [.acquire lock, .client (.request (.read n data))])
    | .writeSector n data => some (x, [.acquire lock, .client (.request (.write n data))])
    | .request r =>
        (x.disk.request x.buffers r).map fun y =>
          ({ x with
             disk := y.1
             buffers := y.2
             issued := x.issued ++ [(r, y.2 r.data)] },
            [.p semaphore, .release lock, .client (.returned x.issued.length)])
    | .returned id => some ({ x with returned := x.returned ++ [id] }, [])
    | .user i =>
        (user.exec s i (x.buffers, x.user)).map fun r =>
          ({ x with buffers := r.1.1, user := r.1.2 }, r.2)
  handler d x :=
    match d with
    | .diskDone =>
        x.disk.handleInterrupt.map fun d =>
          ({ x with disk := d, completed := x.completed + 1 }, [semaphore])
    | .user d => (user.handler d x.user).map fun r => ({ x with user := r.1 }, r.2)

/-- The lock and the semaphore belong to `SynchDisk`. -/
def diskReserved (lock semaphore : Nat) : Reserved (SynchDiskCode ι) where
  sem s := s == .lock lock || s == .sem semaphore
  cond _ := false
  entry
    | .readSector _ _ => true
    | .writeSector _ _ => true
    | .user _ => true
    | _ => false

/-- The user leaves the lock and the semaphore alone. -/
structure DiskUser.Polite (user : DiskUser ι σ η) (lock semaphore : Nat) : Prop where
  exec : ∀ s i x r, user.exec s i x = some r →
    ∀ c ∈ r.2, (diskReserved lock semaphore).outsideCall c = true
  handler : ∀ d x r, user.handler d x = some r → semaphore ∉ r.2

/-! ## What a request does -/

/-- The contents after the requests, each of which reads or writes its sector at
once. -/
inductive Sequential (d0 : Disk) : List (SectorRequest × Bytes) → Disk → Prop where
  | nil : Sequential d0 [] d0
  | read {xs d n data bytes} (h : Sequential d0 xs d) (hread : readSector d n = some bytes) :
      Sequential d0 (xs ++ [(.read n data, bytes)]) d
  | write {xs d d' n data bytes} (h : Sequential d0 xs d)
      (hwrite : writeSector d n bytes = some d') :
      Sequential d0 (xs ++ [(.write n data, bytes)]) d'

/-- A request finds the disk idle and makes it active.  It is the next operation on
the contents. -/
theorem request_spec {d d' : DiskDevice} {buffers buffers' : Buffers} {r : SectorRequest}
    (h : d.request buffers r = some (d', buffers')) :
    d.active = false ∧ d'.active = true ∧ d'.scheduled = d.scheduled + 1 ∧
      ∀ d0 xs, Sequential d0 xs d.contents →
        Sequential d0 (xs ++ [(r, buffers' r.data)]) d'.contents := by
  by_cases hactive : d.active = true
  · cases r <;>
      simp [DiskDevice.request, DiskDevice.readRequest, DiskDevice.writeRequest, hactive] at h
  · refine ⟨eq_false_of_ne_true hactive, ?_⟩
    cases r with
    | read n data =>
        simp only [DiskDevice.request, DiskDevice.readRequest, if_neg hactive,
          Option.map_eq_some_iff, Prod.mk.injEq] at h
        obtain ⟨bytes, hread, rfl, rfl⟩ := h
        refine ⟨rfl, rfl, fun d0 xs hseq => ?_⟩
        rw [SectorRequest.data, update_self]
        exact .read hseq hread
    | write n data =>
        simp only [DiskDevice.request, DiskDevice.writeRequest, if_neg hactive,
          Option.map_eq_some_iff, Prod.mk.injEq] at h
        obtain ⟨contents, hwrite, rfl, rfl⟩ := h
        exact ⟨rfl, rfl, fun d0 xs hseq => .write hseq hwrite⟩

/-- A request for a sector of the disk succeeds while the disk is idle. -/
theorem request_isSome {d : DiskDevice} (h : d.active = false) (buffers : Buffers)
    {r : SectorRequest} (hr : 0 ≤ r.sectorNumber ∧ r.sectorNumber < NumSectors) :
    (d.request buffers r).isSome = true := by
  cases r with
  | read n data =>
      have hread : readSector d.contents n = some (d.contents n.toNat) := if_pos hr
      simp [DiskDevice.request, DiskDevice.readRequest, h, hread]
  | write n data =>
      have hwrite : writeSector d.contents n (buffers data) =
          some (update d.contents n.toNat (buffers data)) := if_pos hr
      simp [DiskDevice.request, DiskDevice.writeRequest, h, hwrite]

/-! ## The places -/

/-- The places of a thread in `ReadSector` and `WriteSector`. -/
inductive DiskPlace where
  | out
  | entering (r : SectorRequest)
  | requesting (r : SectorRequest)
  | waiting (id : Nat)
  | leaving (id : Nat)
  | returning (id : Nat)

namespace DiskPlace

/-- What the thread still has to do in the protocol. -/
def code (lock semaphore : Nat) : DiskPlace → List (Instr (SynchDiskCode ι))
  | .out => []
  | .entering r => [.call (.acquire lock), .call (.client (.request r))]
  | .requesting r => [.call (.client (.request r))]
  | .waiting id => [.call (.p semaphore), .call (.release lock), .call (.client (.returned id))]
  | .leaving id => [.call (.release lock), .call (.client (.returned id))]
  | .returning id => [.call (.client (.returned id))]

def inLock : DiskPlace → Bool
  | .requesting _ | .waiting _ | .leaving _ => true
  | _ => false

def isWaiting : DiskPlace → Bool
  | .waiting _ => true
  | _ => false

/-- The number of the thread's request, when `issued` requests have been issued and
`completed` interrupts have come. -/
def Dated (issued completed : Nat) : DiskPlace → Prop
  | .waiting id => id + 1 = issued
  | .leaving id => id < completed
  | .returning id => id < completed
  | _ => True

variable {p : DiskPlace}

theorem inLock_of_isWaiting (h : p.isWaiting = true) : p.inLock = true := by
  cases p <;> first | rfl | cases h

theorem eq_out_of_code {lock semaphore : Nat}
    (h : (p.code lock semaphore : List (Instr (SynchDiskCode ι))) = []) : p = .out := by
  cases p <;> first | rfl | cases h

theorem Dated.complete {issued completed : Nat} (h : p.Dated issued completed) :
    p.Dated issued (completed + 1) := by
  cases p with
  | leaving id | returning id => exact Nat.lt_succ_of_lt h
  | _ => exact h

theorem Dated.issue {issued completed : Nat} (h : p.Dated issued completed)
    (hp : p.isWaiting = false) : p.Dated (issued + 1) completed := by
  cases p with
  | waiting id => cases hp
  | _ => exact h

end DiskPlace

theorem sem_ne_lock (n l : Nat) : SemId.sem n ≠ .lock l := nofun

/-! ## The invariant -/

/-- The request in progress: there is none; its interrupt is to come; thread `t`
executes the handler and has not come to the `V`; the `V` is done. -/
inductive DiskPhase where
  | idle
  | active
  | undone (t : ThreadPtr)
  | ready
  deriving DecidableEq

theorem undone_injective : Injective DiskPhase.undone := fun _ _ => DiskPhase.undone.inj

/-- Where the threads are and how far the request in progress is. -/
structure DiskGhost where
  place : ThreadPtr → DiskPlace
  /-- The `V` operations of handlers that a thread still has to do. -/
  vs : ThreadPtr → List Nat
  /-- The thread that has the lock. -/
  holder : Option ThreadPtr
  /-- The thread whose request is in progress. -/
  waiter : Option ThreadPtr
  phase : DiskPhase

/-- The invariant of `SynchDisk`. -/
structure SynchDiskInv (lock semaphore : Nat) (d0 : Disk) (g : DiskGhost)
    (c : Config (SynchDiskCode ι) (SynchDiskData σ)) : Prop where
  own : ∀ t, c.own t = handled (g.vs t) ((g.place t).code lock semaphore)
  holder : Sole (fun p => p.inLock = true) g.place g.holder
  waiter : Sole (fun p => p.isWaiting = true) g.place g.waiter
  lockValue : c.value (.lock lock) = if g.holder = none then 1 else 0
  phase : g.waiter = none ↔ g.phase = .idle
  active : c.shared.disk.active = true ↔ g.phase = .active
  scheduled : c.shared.disk.scheduled = if g.phase = .active then 1 else 0
  semValue : c.value (.sem semaphore) = if g.phase = .ready then 1 else 0
  undone : ∀ t, (g.vs t).count semaphore = if g.phase = .undone t then 1 else 0
  issued : c.shared.issued.length = c.shared.completed + if g.phase = .active then 1 else 0
  dated : ∀ t, (g.place t).Dated c.shared.issued.length c.shared.completed
  returned : ∀ id ∈ c.shared.returned, id < c.shared.completed
  sequential : Sequential d0 c.shared.issued c.shared.disk.contents

namespace SynchDiskInv

variable {lock semaphore : Nat} {d0 : Disk} {g : DiskGhost}
  {c c' : Config (SynchDiskCode ι) (SynchDiskData σ)} {t : ThreadPtr} {p : DiskPlace}
  {user : DiskUser ι σ η} {ns : List Nat}

theorem own_move (h : SynchDiskInv lock semaphore d0 g c) (hvs : g.vs t = [])
    (hown : c'.own = update c.own t (p.code lock semaphore)) (u : ThreadPtr) :
    c'.own u = handled (g.vs u) ((update g.place t p u).code lock semaphore) := by
  rw [hown]
  exact handled_move h.own hvs p u

theorem own_handled (h : SynchDiskInv lock semaphore d0 g c)
    (hown : c'.own = update c.own t (handled ns ((g.place t).code lock semaphore)))
    (u : ThreadPtr) :
    c'.own u = handled (update g.vs t ns u) ((g.place u).code lock semaphore) := by
  rw [hown]
  exact handled_update h.own ns u

theorem dated_move (h : SynchDiskInv lock semaphore d0 g c)
    (hp : p.Dated c.shared.issued.length c.shared.completed) (u : ThreadPtr) :
    (update g.place t p u).Dated c.shared.issued.length c.shared.completed := by
  by_cases hu : u = t
  · rw [hu, update_self]
    exact hp
  · rw [update_of_ne hu]
    exact h.dated u

/-- A thread that has the lock and does not wait: nobody waits. -/
theorem waiter_eq_none (h : SynchDiskInv lock semaphore d0 g c)
    (hin : (g.place t).inLock = true) (hnot : (g.place t).isWaiting = false) :
    g.waiter = none := by
  cases hw : g.waiter with
  | none => rfl
  | some u =>
      have hu : (g.place u).isWaiting = true := (h.waiter u).mpr hw
      have hut : t = u := h.holder.unique hin (DiskPlace.inLock_of_isWaiting hu)
      rw [hut, hu] at hnot
      cases hnot

/-- A thread moves outside the lock. -/
theorem glide (h : SynchDiskInv lock semaphore d0 g c) (hvs : g.vs t = [])
    (hown : c'.own = update c.own t (p.code lock semaphore)) (hvalue : c'.value = c.value)
    (hdisk : c'.shared.disk = c.shared.disk) (hissued : c'.shared.issued = c.shared.issued)
    (hcompleted : c'.shared.completed = c.shared.completed)
    (hreturned : ∀ id ∈ c'.shared.returned, id < c.shared.completed)
    (hfrom : (g.place t).inLock = false) (hto : p.inLock = false)
    (hdated : p.Dated c.shared.issued.length c.shared.completed) :
    SynchDiskInv lock semaphore d0 { g with place := update g.place t p } c' := by
  have hnotWaiting : ∀ q : DiskPlace, q.inLock = false → ¬q.isWaiting = true := by
    intro q hq hwaiting
    rw [DiskPlace.inLock_of_isWaiting hwaiting] at hq
    cases hq
  exact
    { h with
      own := h.own_move hvs hown
      holder := h.holder.stay (by rw [hfrom, hto])
      waiter := h.waiter.stay (iff_of_false (hnotWaiting _ hto) (hnotWaiting _ hfrom))
      lockValue := by rw [hvalue, h.lockValue]
      active := by rw [hdisk, h.active]
      scheduled := by rw [hdisk, h.scheduled]
      semValue := by rw [hvalue, h.semValue]
      issued := by rw [hissued, hcompleted, h.issued]
      dated := by
        rw [hissued, hcompleted]
        exact h.dated_move hdated
      returned := by
        rw [hcompleted]
        exact hreturned
      sequential := by
        rw [hissued, hdisk]
        exact h.sequential }

/-- A thread passes the `P` of the lock. -/
theorem acquire {r : SectorRequest} (h : SynchDiskInv lock semaphore d0 g c) (hvs : g.vs t = [])
    (hplace : g.place t = .entering r) (hvalue : c.value (.lock lock) ≠ 0) :
    SynchDiskInv lock semaphore d0
      { g with place := update g.place t (.requesting r), holder := some t }
      ((c.take (.lock lock)).setOwn t ((DiskPlace.requesting r).code lock semaphore)) := by
  have hfree : g.holder = none := by
    by_contra hsome
    rw [h.lockValue, if_neg hsome] at hvalue
    exact hvalue rfl
  have hholder := h.holder
  have hlock := h.lockValue
  rw [hfree] at hholder hlock
  exact
    { h with
      own := h.own_move hvs rfl
      holder := hholder.enter rfl
      waiter := h.waiter.stay (by rw [hplace]; rfl)
      lockValue := by
        show (c.take (.lock lock)).value (.lock lock) = 0
        rw [Config.take_self, hlock]
        rfl
      semValue := (Config.take_of_ne (sem_ne_lock semaphore lock) c).trans h.semValue
      dated := h.dated_move trivial }

/-- The thread that has the lock releases it. -/
theorem release {id : Nat} (h : SynchDiskInv lock semaphore d0 g c) (hvs : g.vs t = [])
    (hplace : g.place t = .leaving id) :
    SynchDiskInv lock semaphore d0
      { g with place := update g.place t (.returning id), holder := none }
      ((c.post (.lock lock)).setOwn t ((DiskPlace.returning id).code lock semaphore)) := by
  have hsome : g.holder = some t := h.holder.holder_eq (by rw [hplace]; rfl)
  have hid := h.dated t
  have hholder := h.holder
  have hlock := h.lockValue
  rw [hsome] at hholder hlock
  rw [hplace] at hid
  exact
    { h with
      own := h.own_move hvs rfl
      holder := hholder.leave (by simp [DiskPlace.inLock])
      waiter := h.waiter.stay (by rw [hplace]; rfl)
      lockValue := by
        show (c.post (.lock lock)).value (.lock lock) = 1
        rw [Config.post_self, hlock]
        rfl
      semValue := (Config.post_of_ne (sem_ne_lock semaphore lock) c).trans h.semValue
      dated := h.dated_move hid }

/-- The thread that has the lock makes its request. -/
theorem request {r : SectorRequest} {d : DiskDevice} {buffers : Buffers}
    (h : SynchDiskInv lock semaphore d0 g c) (hvs : g.vs t = [])
    (hplace : g.place t = .requesting r)
    (hrequest : c.shared.disk.request c.shared.buffers r = some (d, buffers))
    (hown : c'.own = update c.own t
      ((DiskPlace.waiting c.shared.issued.length).code lock semaphore))
    (hvalue : c'.value = c.value)
    (hshared : c'.shared = { c.shared with
      disk := d, buffers := buffers, issued := c.shared.issued ++ [(r, buffers r.data)] }) :
    SynchDiskInv lock semaphore d0
      { g with
        place := update g.place t (.waiting c.shared.issued.length)
        waiter := some t
        phase := .active } c' := by
  obtain ⟨hidle, hactive, hscheduled, hseq⟩ := request_spec hrequest
  have hnone : g.waiter = none :=
    h.waiter_eq_none (t := t) (by rw [hplace]; rfl) (by rw [hplace]; rfl)
  have hphase : g.phase = .idle := h.phase.mp hnone
  have hwaiter := h.waiter
  rw [hnone] at hwaiter
  have hlength : c'.shared.issued.length = c.shared.issued.length + 1 := by
    rw [hshared]
    simp
  have hissued := h.issued
  have hsched := h.scheduled
  have hsem := h.semValue
  rw [hphase] at hissued hsched hsem
  exact
    { own := h.own_move hvs hown
      holder := h.holder.stay (by rw [hplace]; rfl)
      waiter := hwaiter.enter rfl
      lockValue := by rw [hvalue, h.lockValue]
      phase := ⟨nofun, nofun⟩
      active := by
        rw [hshared]
        exact iff_of_true hactive rfl
      scheduled := by
        rw [hshared]
        show d.scheduled = 1
        rw [hscheduled, hsched]
        rfl
      semValue := by
        rw [hvalue, hsem]
        rfl
      undone := fun u => by
        rw [h.undone u, hphase]
        rfl
      issued := by
        rw [hlength, hissued, hshared]
        rfl
      dated := by
        intro u
        rw [hlength, hshared]
        show (update g.place t (.waiting c.shared.issued.length) u).Dated _ c.shared.completed
        by_cases hu : u = t
        · rw [hu, update_self]
          rfl
        · rw [update_of_ne hu]
          refine (h.dated u).issue (eq_false_of_ne_true fun hwaiting => ?_)
          have hsome := h.waiter.holder_eq hwaiting
          rw [hnone] at hsome
          cases hsome
      returned := by
        rw [hshared]
        exact h.returned
      sequential := by
        rw [hshared]
        exact hseq d0 _ h.sequential }

/-- The interrupt comes, and the handler has a `V` to do. -/
theorem interrupt {d : DiskDevice} (h : SynchDiskInv lock semaphore d0 g c)
    (hdone : c.shared.disk.handleInterrupt = some d)
    (hcount : ns.count semaphore = 1 + (g.vs t).count semaphore)
    (hown : c'.own = update c.own t (handled ns ((g.place t).code lock semaphore)))
    (hvalue : c'.value = c.value)
    (hshared : c'.shared = { c.shared with disk := d, completed := c.shared.completed + 1 }) :
    SynchDiskInv lock semaphore d0 { g with vs := update g.vs t ns, phase := .undone t } c' := by
  have hphase : g.phase = .active := by
    by_contra hnot
    have hzero := h.scheduled
    rw [if_neg hnot] at hzero
    simp [DiskDevice.handleInterrupt, hzero] at hdone
  have hsched := h.scheduled
  have hissued := h.issued
  have hsem := h.semValue
  rw [hphase] at hsched hissued hsem
  rw [if_pos rfl] at hsched
  rw [DiskDevice.handleInterrupt, hsched, if_neg Nat.one_ne_zero, Option.some.injEq] at hdone
  subst hdone
  exact
    { h with
      own := h.own_handled hown
      lockValue := by rw [hvalue, h.lockValue]
      phase := by
        rw [h.phase, hphase]
        exact ⟨nofun, nofun⟩
      active := by
        rw [hshared]
        exact ⟨nofun, nofun⟩
      scheduled := by
        rw [hshared]
        rfl
      semValue := by
        rw [hvalue, hsem]
        rfl
      undone := undone_raise undone_injective h.undone (by rw [hphase]; exact fun _ => nofun) hcount
      issued := by
        rw [hshared]
        exact hissued
      dated := fun u => by
        rw [hshared]
        exact (h.dated u).complete
      returned := fun id hid => by
        rw [hshared] at hid ⊢
        exact Nat.lt_succ_of_lt (h.returned id hid)
      sequential := by
        rw [hshared]
        exact h.sequential }

/-- The handler does the `V` on the semaphore. -/
theorem post (h : SynchDiskInv lock semaphore d0 g c) (hvs : g.vs t = semaphore :: ns) :
    SynchDiskInv lock semaphore d0 { g with vs := update g.vs t ns, phase := .ready }
      ((c.post (.sem semaphore)).setOwn t (handled ns ((g.place t).code lock semaphore))) := by
  have hphase : g.phase = .undone t := by
    by_contra hnot
    have hcount := h.undone t
    rw [hvs, List.count_cons_self, if_neg hnot] at hcount
    cases hcount
  have hundone := h.undone
  have hsched := h.scheduled
  have hissued := h.issued
  have hsem := h.semValue
  rw [hphase] at hundone hsched hissued hsem
  exact
    { h with
      own := h.own_handled rfl
      lockValue := (Config.post_of_ne (sem_ne_lock semaphore lock).symm c).trans h.lockValue
      phase := by
        rw [h.phase, hphase]
        exact ⟨nofun, nofun⟩
      active := by
        refine h.active.trans ?_
        rw [hphase]
        exact ⟨nofun, nofun⟩
      scheduled := hsched
      semValue := by
        show (c.post (.sem semaphore)).value (.sem semaphore) = 1
        rw [Config.post_self, hsem]
        rfl
      undone := undone_lower undone_injective hundone hvs
      issued := hissued }

/-- The thread passes the `P` of the semaphore. -/
theorem collect {id : Nat} (h : SynchDiskInv lock semaphore d0 g c) (hvs : g.vs t = [])
    (hplace : g.place t = .waiting id) (hvalue : c.value (.sem semaphore) ≠ 0) :
    SynchDiskInv lock semaphore d0
      { g with place := update g.place t (.leaving id), waiter := none, phase := .idle }
      ((c.take (.sem semaphore)).setOwn t ((DiskPlace.leaving id).code lock semaphore)) := by
  have hphase : g.phase = .ready := by
    by_contra hnot
    rw [h.semValue, if_neg hnot] at hvalue
    exact hvalue rfl
  have hsome : g.waiter = some t := h.waiter.holder_eq (by rw [hplace]; rfl)
  have hid := h.dated t
  have hsched := h.scheduled
  have hissued := h.issued
  have hsem := h.semValue
  have hwaiter := h.waiter
  rw [hphase] at hsched hissued hsem
  rw [hsome] at hwaiter
  rw [hplace] at hid
  exact
    { h with
      own := h.own_move hvs rfl
      holder := h.holder.stay (by rw [hplace]; rfl)
      waiter := hwaiter.leave (by simp [DiskPlace.isWaiting])
      lockValue := (Config.take_of_ne (sem_ne_lock semaphore lock).symm c).trans h.lockValue
      phase := iff_of_true rfl rfl
      active := by
        refine h.active.trans ?_
        rw [hphase]
        exact ⟨nofun, nofun⟩
      scheduled := hsched
      semValue := by
        show (c.take (.sem semaphore)).value (.sem semaphore) = 0
        rw [Config.take_self, hsem]
        rfl
      undone := fun u => by
        rw [h.undone u, hphase]
        rfl
      issued := hissued
      dated := by
        refine h.dated_move ?_
        show id < c.shared.completed
        rw [hissued] at hid
        exact Nat.lt_of_succ_le (Nat.le_of_eq hid) }

/-- A handler does a `V` on another semaphore, or has some to do. -/
theorem handle (h : SynchDiskInv lock semaphore d0 g c)
    (hcount : ns.count semaphore = (g.vs t).count semaphore)
    (hown : c'.own = update c.own t (handled ns ((g.place t).code lock semaphore)))
    (hvalue : ∀ s, (diskReserved lock semaphore : Reserved (SynchDiskCode ι)).sem s = true →
      c'.value s = c.value s)
    (hdisk : c'.shared.disk = c.shared.disk) (hissued : c'.shared.issued = c.shared.issued)
    (hcompleted : c'.shared.completed = c.shared.completed)
    (hreturned : c'.shared.returned = c.shared.returned) :
    SynchDiskInv lock semaphore d0 { g with vs := update g.vs t ns } c' :=
  { h with
    own := h.own_handled hown
    lockValue := by rw [hvalue _ (by simp [diskReserved]), h.lockValue]
    active := by rw [hdisk, h.active]
    scheduled := by rw [hdisk, h.scheduled]
    semValue := by rw [hvalue _ (by simp [diskReserved]), h.semValue]
    undone := undone_stay h.undone hcount
    issued := by rw [hissued, hcompleted, h.issued]
    dated := by
      rw [hissued, hcompleted]
      exact h.dated
    returned := by
      rw [hreturned, hcompleted]
      exact h.returned
    sequential := by
      rw [hissued, hdisk]
      exact h.sequential }

/-- The step leaves the synchronous disk alone. -/
theorem outside (h : SynchDiskInv lock semaphore d0 g c) (hown : c'.own = c.own)
    (hvalue : ∀ s, (diskReserved lock semaphore : Reserved (SynchDiskCode ι)).sem s = true →
      c'.value s = c.value s)
    (hshared : c'.shared = c.shared) : ∃ g', SynchDiskInv lock semaphore d0 g' c' := by
  have hcount : (g.vs 0).count semaphore = (g.vs 0).count semaphore := rfl
  refine ⟨_, h.handle (t := 0) hcount ?_ hvalue ?_ ?_ ?_ ?_⟩
  · rw [hown, ← h.own 0, update_eq_self]
  all_goals rw [hshared]

/-- A thread outside calls `ReadSector` or `WriteSector`, or executes other code of
the program. -/
theorem call {s : Sched} {i : SynchDiskCode ι}
    {r : SynchDiskData σ × List (Threads.Call (SynchDiskCode ι))}
    (h : SynchDiskInv lock semaphore d0 g c) (hpolite : user.Polite lock semaphore)
    (hown : c.own t = [])
    (hi : (diskReserved lock semaphore : Reserved (SynchDiskCode ι)).entry i = true)
    (hexec : (synchDisk lock semaphore user).exec s i c.shared = some r) :
    ∃ g', SynchDiskInv lock semaphore d0 g' ({ c with shared := r.1 }.setOwn t
      ((diskReserved lock semaphore).inner (synchCode (r.2.map Instr.call)))) := by
  have hhandled := (h.own t).symm.trans hown
  obtain ⟨hvs, hcode⟩ := List.append_eq_nil_iff.mp hhandled
  rw [List.map_eq_nil_iff] at hvs
  have hplace : g.place t = .out := DiskPlace.eq_out_of_code hcode
  have hout : (g.place t).inLock = false := by
    rw [hplace]
    rfl
  cases i with
  | readSector n data =>
      cases hexec
      exact ⟨_, h.glide (p := .entering (.read n data)) hvs rfl rfl rfl rfl rfl h.returned hout rfl
        trivial⟩
  | writeSector n data =>
      cases hexec
      exact ⟨_, h.glide (p := .entering (.write n data)) hvs rfl rfl rfl rfl rfl h.returned hout
        rfl trivial⟩
  | user i =>
      obtain ⟨r', hr', rfl⟩ := Option.map_eq_some_iff.mp hexec
      refine ⟨_, h.glide (p := .out) hvs ?_ rfl rfl rfl rfl h.returned hout rfl trivial⟩
      rw [own_calls_outside (hpolite.exec s i _ r' hr')]
      rfl
  | request r => cases hi
  | returned id => cases hi

/-- A thread executes code of `SynchDisk`, with no handler before it. -/
theorem executeCode {i : Instr (SynchDiskCode ι)}
    {own : List (Instr (SynchDiskCode ι))} (h : SynchDiskInv lock semaphore d0 g c)
    (hvs : g.vs t = []) (hcode : (g.place t).code lock semaphore = i :: own)
    (hexec : Config.Executes (diskReserved lock semaphore) (synchDisk lock semaphore user) t c
      own c' i) :
    ∃ g', SynchDiskInv lock semaphore d0 g' c' := by
  cases hplace : g.place t with
  | out =>
      rw [hplace] at hcode
      cases hcode
  | entering r =>
      rw [hplace] at hcode
      cases hcode
      obtain ⟨hvalue, rfl⟩ := hexec
      exact ⟨_, h.acquire hvs hplace hvalue⟩
  | requesting r =>
      rw [hplace] at hcode
      cases hcode
      obtain ⟨s, x, _, hx, rfl⟩ := hexec
      obtain ⟨⟨d, buffers⟩, hrequest, rfl⟩ := Option.map_eq_some_iff.mp hx
      exact ⟨_, h.request hvs hplace hrequest rfl rfl rfl⟩
  | waiting id =>
      rw [hplace] at hcode
      cases hcode
      obtain ⟨hvalue, rfl⟩ := hexec
      exact ⟨_, h.collect hvs hplace hvalue⟩
  | leaving id =>
      rw [hplace] at hcode
      cases hcode
      cases hexec
      exact ⟨_, h.release hvs hplace⟩
  | returning id =>
      have hid := h.dated t
      rw [hplace] at hcode hid
      cases hcode
      obtain ⟨s, x, _, hx, rfl⟩ := hexec
      cases hx
      refine ⟨_, h.glide (p := .out) hvs rfl rfl rfl rfl rfl ?_ (by rw [hplace]; rfl) rfl trivial⟩
      intro id' hmem
      rcases List.mem_append.mp hmem with hold | hnew
      · exact h.returned id' hold
      · rw [List.mem_singleton.mp hnew]
        exact hid

/-- A thread executes code of `SynchDisk` or of a handler. -/
theorem execute {i : Instr (SynchDiskCode ι)}
    {own : List (Instr (SynchDiskCode ι))} (h : SynchDiskInv lock semaphore d0 g c)
    (hown : c.own t = i :: own)
    (hexec : Config.Executes (diskReserved lock semaphore) (synchDisk lock semaphore user) t c
      own c' i) :
    ∃ g', SynchDiskInv lock semaphore d0 g' c' := by
  rcases handled_eq_cons ((h.own t).symm.trans hown) with ⟨n, ns, hvs, rfl, rfl⟩ | ⟨hvs, hcode⟩
  · cases hexec
    by_cases hn : n = semaphore
    · rw [hn] at hvs ⊢
      exact ⟨_, h.post hvs⟩
    · refine ⟨_, h.handle ?_ rfl (fun s hs => Config.post_of_ne ?_ c) rfl rfl rfl rfl⟩
      · rw [hvs, List.count_cons_of_ne hn]
      · intro hsn
        rw [hsn] at hs
        simp [diskReserved, hn] at hs
  · exact h.executeCode hvs hcode hexec

/-- A device acts. -/
theorem device {d : DiskInterrupt η} {r : SynchDiskData σ × List Nat}
    (h : SynchDiskInv lock semaphore d0 g c) (hpolite : user.Polite lock semaphore)
    (hexec : (synchDisk lock semaphore user).handler d c.shared = some r) :
    ∃ g', SynchDiskInv lock semaphore d0 g' ({ c with shared := r.1 }.setOwn t
      ((diskReserved lock semaphore).join (handled r.2 []) (c.own t))) := by
  obtain ⟨vs, hjoin, hcount⟩ := (diskReserved lock semaphore).join_handled r.2 (g.vs t)
    ((g.place t).code lock semaphore : List (Instr (SynchDiskCode ι)))
  have hcount := hcount semaphore (by simp [diskReserved])
  rw [h.own t, hjoin]
  cases d with
  | diskDone =>
      obtain ⟨d, hdone, rfl⟩ := Option.map_eq_some_iff.mp hexec
      rw [List.count_singleton_self] at hcount
      exact ⟨_, h.interrupt hdone hcount rfl rfl rfl⟩
  | user d =>
      obtain ⟨r', hr', rfl⟩ := Option.map_eq_some_iff.mp hexec
      rw [List.count_eq_zero.mpr (hpolite.handler d _ r' hr'), Nat.zero_add] at hcount
      exact ⟨_, h.handle hcount rfl (fun _ _ => rfl) rfl rfl rfl rfl⟩

/-- Every step keeps the invariant. -/
theorem step (h : SynchDiskInv lock semaphore d0 g c) (hpolite : user.Polite lock semaphore)
    (hstep : Config.Step (diskReserved lock semaphore) (synchDisk lock semaphore user) t c c') :
    ∃ g', SynchDiskInv lock semaphore d0 g' c' := by
  cases hstep with
  | outside hown hvalue hqueue hshared => exact h.outside hown hvalue hshared
  | enter s hown hi hs hexec => exact h.call hpolite hown hi hexec
  | exec hown hexec => exact h.execute hown hexec
  | device hexec => exact h.device hpolite hexec

end SynchDiskInv

/-! ## The synchronous disk in the kernel -/

section Safe

variable (lock semaphore : Nat)

/-- The thread has made the request with this number, and has not passed the `P`
of the semaphore. -/
def Awaits (k : Kernel (SynchDiskCode ι) (SynchDiskData σ)) (t : ThreadPtr) (id : Nat) : Prop :=
  let own := (k.config (diskReserved lock semaphore)).own t
  .call (.p semaphore) ∈ own ∧ .call (.client (.returned id)) ∈ own

/-- The thread executes a handler that has still to do its `V`. -/
def Signals (k : Kernel (SynchDiskCode ι) (SynchDiskData σ)) (t : ThreadPtr) : Prop :=
  .call (.v semaphore) ∈ (k.config (diskReserved lock semaphore)).own t

/-- The sectors are read and written by atomic operations.  Request number `id` is
complete when more than `id` interrupts have come. -/
structure SynchDiskSafe (user : DiskUser ι σ η) (d0 : Disk)
    (k : Kernel (SynchDiskCode ι) (SynchDiskData σ)) : Prop where
  /-- `ASSERT(!active)` does not fail. -/
  idle : ∀ t r rest, k.code t = .call (.client (.request r)) :: rest →
    k.shared.disk.active = false
  /-- A request for a sector of the disk succeeds. -/
  request : ∀ r rest, k.code k.cur = .call (.client (.request r)) :: rest →
    0 ≤ r.sectorNumber ∧ r.sectorNumber < NumSectors →
    (k.step (synchDisk lock semaphore user) .exec).isSome = true
  /-- At most one request is outstanding, and its interrupt is scheduled. -/
  outstanding : k.shared.disk.scheduled ≤ 1 ∧
    k.shared.issued.length = k.shared.completed + k.shared.disk.scheduled
  /-- A call returns after the interrupt of its request. -/
  returned : ∀ id ∈ k.shared.returned, id < k.shared.completed
  /-- The semaphore has a unit only for a thread whose request is complete. -/
  credited : k.value (.sem semaphore) = 0 ∨
    k.value (.sem semaphore) = 1 ∧ ∃ t id, Awaits lock semaphore k t id ∧
      id + 1 = k.shared.completed
  /-- A thread waits for the last request, and finds the unit or will find it. -/
  awaited : ∀ t id, Awaits lock semaphore k t id → id + 1 = k.shared.issued.length ∧
    (id < k.shared.completed → k.value (.sem semaphore) = 1 ∨ ∃ u, Signals lock semaphore k u)
  /-- No other thread can take the unit. -/
  alone : ∀ t u id id', Awaits lock semaphore k t id → Awaits lock semaphore k u id' → t = u
  /-- The requests have had their effects one after the other. -/
  sequential : Sequential d0 k.shared.issued k.shared.disk.contents

variable {lock semaphore} {d0 : Disk} {g : DiskGhost} {t : ThreadPtr}
  {k : Kernel (SynchDiskCode ι) (SynchDiskData σ)}

theorem awaits_iff {id : Nat}
    (h : SynchDiskInv lock semaphore d0 g (k.config (diskReserved lock semaphore))) :
    Awaits lock semaphore k t id ↔ g.place t = .waiting id := by
  simp only [Awaits, h.own t, handled, List.mem_append, List.mem_map]
  cases g.place t <;> simp [DiskPlace.code, eq_comm]

theorem signals_iff
    (h : SynchDiskInv lock semaphore d0 g (k.config (diskReserved lock semaphore))) :
    Signals lock semaphore k t ↔ g.phase = .undone t := by
  have hmem : Signals lock semaphore k t ↔ semaphore ∈ g.vs t := by
    simp only [Signals, h.own t, handled, List.mem_append, List.mem_map]
    cases g.place t <;> simp [DiskPlace.code]
  have hcount := h.undone t
  rw [hmem, ← List.count_pos_iff, hcount]
  by_cases hphase : g.phase = .undone t
  · simp [hphase]
  · simp [hphase]

/-- A thread that is about to make its request has the lock. -/
theorem place_of_request {r : SectorRequest} {rest : List (Instr (SynchDiskCode ι))}
    (h : SynchDiskInv lock semaphore d0 g (k.config (diskReserved lock semaphore)))
    (hcode : k.code t = .call (.client (.request r)) :: rest) : g.place t = .requesting r := by
  have hown : (k.config (diskReserved lock semaphore)).own t =
      .call (.client (.request r)) :: (diskReserved lock semaphore).own (synchCode rest) := by
    show (diskReserved lock semaphore).own (synchCode (k.code t)) = _
    rw [hcode]
    rcases (diskReserved lock semaphore).own_cons
      (i := .call (.client (.request r))) rfl (synchCode rest) with ⟨_, _, hout⟩ | hcons
    · cases hout
    · exact hcons
  rcases handled_eq_cons ((h.own t).symm.trans hown) with ⟨n, ns, _, hv, _⟩ | ⟨_, hplace⟩
  · cases hv
  · cases hp : g.place t with
    | requesting r' =>
        rw [hp] at hplace
        have hhead := (List.cons.inj hplace).1
        cases hhead
        rfl
    | _ => simp [hp, DiskPlace.code] at hplace

theorem idle_of_request {r : SectorRequest} {rest : List (Instr (SynchDiskCode ι))}
    (h : SynchDiskInv lock semaphore d0 g (k.config (diskReserved lock semaphore)))
    (hcode : k.code t = .call (.client (.request r)) :: rest) :
    k.shared.disk.active = false := by
  have hplace := place_of_request h hcode
  have hnone := h.waiter_eq_none (t := t) (by rw [hplace]; rfl) (by rw [hplace]; rfl)
  refine eq_false_of_ne_true fun hactive => ?_
  have hphase := h.active.mp hactive
  rw [h.phase.mp hnone] at hphase
  cases hphase

theorem synchDiskSafe_of_inv (user : DiskUser ι σ η)
    (h : SynchDiskInv lock semaphore d0 g (k.config (diskReserved lock semaphore))) :
    SynchDiskSafe lock semaphore user d0 k where
  idle _ _ _ hcode := idle_of_request h hcode
  request r rest hcode hr := by
    have hsome := request_isSome (idle_of_request h hcode) k.shared.buffers hr
    obtain ⟨y, hy⟩ := Option.isSome_iff_exists.mp hsome
    simp [Kernel.step, hcode, Kernel.execInstr, Kernel.execCall, synchDisk, hy]
  outstanding := by
    have hsched : k.shared.disk.scheduled = _ := h.scheduled
    have hissued : k.shared.issued.length = _ := h.issued
    rw [hsched]
    refine ⟨?_, hissued⟩
    split <;> omega
  returned := h.returned
  credited := by
    have hvalue : k.value (.sem semaphore) = _ := h.semValue
    have hissued : k.shared.issued.length = _ := h.issued
    by_cases hready : g.phase = .ready
    · cases hw : g.waiter with
      | none =>
          rw [h.phase.mp hw] at hready
          cases hready
      | some t =>
          have hwaiting := (h.waiter t).mpr hw
          have hdated := h.dated t
          rw [hready] at hvalue hissued
          cases hplace : g.place t with
          | waiting id =>
              rw [hplace] at hdated
              exact Or.inr ⟨hvalue, t, id, (awaits_iff h).mpr hplace, hdated.trans hissued⟩
          | _ =>
              rw [hplace] at hwaiting
              cases hwaiting
    · rw [if_neg hready] at hvalue
      exact Or.inl hvalue
  awaited t id hawaits := by
    have hplace := (awaits_iff h).mp hawaits
    have hdated := h.dated t
    have hissued : k.shared.issued.length = k.shared.completed + _ := h.issued
    have hvalue : k.value (.sem semaphore) = _ := h.semValue
    rw [hplace] at hdated
    refine ⟨hdated, fun hlt => ?_⟩
    have hid : id + 1 = k.shared.issued.length := hdated
    cases hphase : g.phase with
    | idle =>
        have hnone := h.phase.mpr hphase
        rw [h.waiter.holder_eq (by rw [hplace]; rfl)] at hnone
        cases hnone
    | active =>
        rw [hphase, if_pos rfl] at hissued
        omega
    | undone u => exact Or.inr ⟨u, (signals_iff h).mpr hphase⟩
    | ready =>
        rw [hphase] at hvalue
        exact Or.inl hvalue
  alone t u id id' ht hu := by
    refine h.waiter.unique ?_ ?_
    · rw [(awaits_iff h).mp ht]
      rfl
    · rw [(awaits_iff h).mp hu]
      rfl
  sequential := h.sequential

end Safe

/-- The disk is idle and nobody has called `ReadSector` or `WriteSector` yet. -/
def SynchDiskData.init (contents : Disk) (buffers : Buffers) (user : σ) : SynchDiskData σ where
  disk := { contents := contents, active := false, scheduled := 0 }
  buffers := buffers
  user := user
  issued := []
  completed := 0
  returned := []

theorem synchDiskInv_init {lock semaphore : Nat} {initialValue : Nat → Int}
    (h0 : initialValue semaphore = 0) (holding : Nat → Option ThreadPtr) (contents : Disk)
    (buffers : Buffers) (x : σ) :
    ∃ g, SynchDiskInv lock semaphore contents g ((Kernel.init initialValue holding
      (.init contents buffers x) : Kernel (SynchDiskCode ι) (SynchDiskData σ)).config
        (diskReserved lock semaphore)) := by
  refine ⟨⟨fun _ => .out, fun _ => [], none, none, .idle⟩, ?_⟩
  exact
    { own := fun _ => rfl
      holder := fun _ => ⟨nofun, nofun⟩
      waiter := fun _ => ⟨nofun, nofun⟩
      lockValue := rfl
      phase := iff_of_true rfl rfl
      active := ⟨nofun, nofun⟩
      scheduled := rfl
      semValue := h0
      undone := fun _ => rfl
      issued := rfl
      dated := fun _ => trivial
      returned := nofun
      sequential := .nil }

/-- In every run of threads that call `ReadSector` and `WriteSector`, the sectors are
read and written by atomic operations. -/
theorem synch_disk_atomic (lock semaphore : Nat) (user : DiskUser ι σ η)
    (hpolite : user.Polite lock semaphore) (initialValue : Nat → Int)
    (h0 : initialValue semaphore = 0) (holding : Nat → Option ThreadPtr) (contents : Disk)
    (buffers : Buffers) (x : σ) (as : List (Action (SynchDiskCode ι) (DiskInterrupt η)))
    (k : Kernel (SynchDiskCode ι) (SynchDiskData σ))
    (hok : Along (Kernel.step (synchDisk lock semaphore user))
      (fun k a => k.ForkOnce a ∧ Kernel.OutsideStart (diskReserved lock semaphore) a)
      (Kernel.init initialValue holding (.init contents buffers x)) as)
    (hrun : run (Kernel.step (synchDisk lock semaphore user))
      (Kernel.init initialValue holding (.init contents buffers x)) as = some k) :
    SynchDiskSafe lock semaphore user contents k := by
  obtain ⟨g, hg⟩ := Kernel.config_invariant
    (I := fun c => ∃ g, SynchDiskInv lock semaphore contents g c)
    (fun t c c' h hstep => h.elim fun g hg => hg.step hpolite hstep) (Kernel.control_init _ _ _)
    (synchDiskInv_init h0 holding contents buffers x) hok hrun
  exact synchDiskSafe_of_inv user hg

/-- A program whose threads only call `ReadSector` and `WriteSector`. -/
def noUser : DiskUser Empty Unit Empty where
  exec _ i _ := i.elim
  handler d _ := d.elim

/-- One thread writes sector 3 and another reads it.  The interrupt of the write comes
when the second thread starts. -/
def writeAndRead : List (Action (SynchDiskCode Empty) (DiskInterrupt Empty)) :=
  .start [.newThread 255, .newThread 255, .fork 1 (.writeSector 3 0), .fork 2 (.readSector 3 1),
    .yield] :: List.replicate 20 .exec ++ .interrupt .diskDone :: List.replicate 9 .exec ++
    .start [.yield, .yield] :: List.replicate 21 .exec

/-- The write has returned, and the read waits for its interrupt. -/
theorem synch_disk_atomic_two : ∃ k : Kernel (SynchDiskCode Empty) (SynchDiskData Unit),
    run (Kernel.step (synchDisk 0 0 noUser)) (Kernel.init (fun _ => 0) (fun _ => none)
      (.init (fun _ _ => 0) (fun data _ => data) ())) writeAndRead = some k ∧
    k.shared.issued.map Prod.fst = [.write 3 0, .read 3 1] ∧ k.shared.returned = [0] ∧
    Awaits 0 0 k 2 1 ∧ SynchDiskSafe 0 0 noUser (fun _ _ => 0) k :=
  ⟨_, rfl, rfl, rfl, ⟨.head _, .tail _ (.tail _ (.head _))⟩,
    synch_disk_atomic 0 0 noUser ⟨fun _ i => i.elim, fun d => d.elim⟩ (fun _ => 0) rfl
      (fun _ => none) (fun _ _ => 0) (fun data _ => data) () writeAndRead _ (by decide) rfl⟩

end Nachos.Filesys

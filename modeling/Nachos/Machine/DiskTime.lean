import Nachos.Lib.Rotation
import Nachos.Lib.Run
import Nachos.Machine.Disk

/-!
# How long a disk request takes

`ComputeLatency` and `UpdateLast` of `machine/disk.cc`, with the clock.  The sectors
of a track are the slots of a rotation: at time `t` the head is over the sector with
the number `t / RotationTime` modulo `SectorsPerTrack`.

A run is made of requests, of ticks of the clock and of the interrupts that end the
requests.  An interrupt comes when its time is reached or later.  Ticks are `Int`,
without overflow, and division and remainder are those of C.

`headSector` says where the head is: over the track of the last request.  Between two
requests `bufferInit` is not in the future, and so the track buffer has held the
track since then.
-/

namespace Nachos.Machine

open Lib

/-- The ticks in which the disk rotates past one sector. -/
def RotationTime : Int := 500

/-- The ticks in which the head moves past one track. -/
def SeekTime : Int := 500

/-- The fields of `class Disk` that requests leave for the next ones, and the clock. -/
structure DiskTimer where
  totalTicks : Int
  lastSector : Int
  bufferInit : Int
  active : Bool
  /-- When the pending `DiskDone` interrupt is due. -/
  due : Option Int

inductive DiskAction where
  | tick (ticks : Nat)
  | readRequest (sectorNumber : Int)
  | writeRequest (sectorNumber : Int)
  | handleInterrupt

namespace DiskTimer

/-- `Disk::Disk`, at any time. -/
def new (totalTicks : Int) : DiskTimer where
  totalTicks := totalTicks
  lastSector := 0
  bufferInit := 0
  active := false
  due := none

/-- `Disk::TimeToSeek`: the result, and `*rotation`. -/
def timeToSeek (d : DiskTimer) (newSector : Int) : Int × Int :=
  let newTrack := newSector.tdiv SectorsPerTrack
  let oldTrack := d.lastSector.tdiv SectorsPerTrack
  let seek := (newTrack - oldTrack).natAbs * SeekTime
  let over' := (d.totalTicks + seek).tmod RotationTime
  (seek, if 0 < over' then RotationTime - over' else 0)

/-- `Disk::ModuloDiff`. -/
def moduloDiff (to' from' : Int) : Int :=
  let toOffset := to'.tmod SectorsPerTrack
  let fromOffset := from'.tmod SectorsPerTrack
  (toOffset - fromOffset + SectorsPerTrack).tmod SectorsPerTrack

/-- The time at the next border between two sectors after the seek. -/
def timeAfter (d : DiskTimer) (newSector : Int) : Int :=
  d.totalTicks + (d.timeToSeek newSector).1 + (d.timeToSeek newSector).2

/-- The condition of `ComputeLatency` for the track buffer. -/
def inTrackBuffer (d : DiskTimer) (newSector : Int) (writing : Bool) : Bool :=
  writing = false ∧ (d.timeToSeek newSector).1 = 0 ∧
    moduloDiff newSector (d.bufferInit.tdiv RotationTime) <
      (d.timeAfter newSector - d.bufferInit).tdiv RotationTime

/-- `Disk::ComputeLatency`. -/
def computeLatency (d : DiskTimer) (newSector : Int) (writing : Bool) : Int :=
  let (seek, rotation) := d.timeToSeek newSector
  if d.inTrackBuffer newSector writing then RotationTime
  else
    let rotation := rotation +
      moduloDiff newSector ((d.timeAfter newSector).tdiv RotationTime) * RotationTime
    seek + rotation + RotationTime

/-- `Disk::UpdateLast`. -/
def updateLast (d : DiskTimer) (newSector : Int) : DiskTimer :=
  let (seek, rotate) := d.timeToSeek newSector
  { d with
    bufferInit := if seek ≠ 0 then d.totalTicks + seek + rotate else d.bufferInit
    lastSector := newSector }

/-- `Disk::ReadRequest` and `Disk::WriteRequest`, without the data.  `Schedule` has an
`ASSERT` on the ticks. -/
def request (d : DiskTimer) (sectorNumber : Int) (writing : Bool) : Option DiskTimer :=
  let ticks := d.computeLatency sectorNumber writing
  if d.active then none
  else if 0 ≤ sectorNumber ∧ sectorNumber < NumSectors then
    if 0 < ticks then
      some { d.updateLast sectorNumber with active := true, due := some (d.totalTicks + ticks) }
    else none
  else none

/-- `Disk::HandleInterrupt`, not before the interrupt is due. -/
def handleInterrupt (d : DiskTimer) : Option DiskTimer :=
  d.due.bind fun when =>
    if when ≤ d.totalTicks then some { d with active := false, due := none } else none

def step (d : DiskTimer) : DiskAction → Option DiskTimer
  | .tick ticks => some { d with totalTicks := d.totalTicks + ticks }
  | .readRequest sectorNumber => d.request sectorNumber false
  | .writeRequest sectorNumber => d.request sectorNumber true
  | .handleInterrupt => d.handleInterrupt

end DiskTimer

/-! ## What the times mean -/

/-- The track of a sector. -/
def track (sector : Int) : Int := sector / SectorsPerTrack

/-- A request moves the head to its sector. -/
def moveHead (head : Int) : DiskAction → Int
  | .readRequest sectorNumber => sectorNumber
  | .writeRequest sectorNumber => sectorNumber
  | _ => head

/-- The sector of the last request, which is `0` at first. -/
def headSector (as : List DiskAction) : Int := as.foldl moveHead 0

/-- The ticks of the seek from one sector to another. -/
def seekTime (old new : Int) : Int := (track new - track old).natAbs * SeekTime

/-- At time `t` the head has just passed over the sector completely. -/
def HasPassed (sector t : Int) : Prop :=
  RotationTime ∣ t ∧ t / RotationTime ≡ sector + 1 [ZMOD SectorsPerTrack]

/-- The latency is right.  The head is over the track of `head`. -/
structure LatencyOk (head : Int) (d : DiskTimer) (newSector : Int) (writing : Bool)
    (latency : Int) : Prop where
  /-- After the seek the whole sector is transferred, as soon as it can be. -/
  earliest : d.inTrackBuffer newSector writing = false →
    IsLeast {t | d.totalTicks + seekTime head newSector + RotationTime ≤ t ∧
      HasPassed newSector t} (d.totalTicks + latency)
  buffered : d.inTrackBuffer newSector writing = true →
    writing = false ∧ latency = RotationTime
  /-- A read that takes no longer than a transfer is from the current track, and the
  sector has passed since the track buffer was started. -/
  inBuffer : writing = false → latency = RotationTime →
    track newSector = track head ∧
      ∃ t, HasPassed newSector t ∧ d.bufferInit ≤ t - RotationTime ∧
        t ≤ d.totalTicks + latency

theorem hasPassed_iff {sector t : Int} :
    HasPassed sector t ↔ Begins RotationTime SectorsPerTrack sector (t - RotationTime) := by
  simp only [HasPassed, Begins, RotationTime, SectorsPerTrack, Int.ModEq]
  omega

theorem seekTime_eq_zero {old new : Int} : seekTime old new = 0 ↔ track new = track old := by
  simp only [seekTime, SeekTime]
  omega

theorem seekTime_nonneg (old new : Int) : 0 ≤ seekTime old new := by
  simp only [seekTime, SeekTime]
  omega

namespace DiskTimer

variable {d d' : DiskTimer} {sector : Int}

theorem moduloDiff_eq {to' from' : Int} (hto : 0 ≤ to') (hfrom : 0 ≤ from') :
    moduloDiff to' from' = (to' - from') % SectorsPerTrack := by
  rw [moduloDiff, Int.tmod_eq_emod_of_nonneg hto, Int.tmod_eq_emod_of_nonneg hfrom,
    Int.tmod_eq_emod_of_nonneg (by simp only [SectorsPerTrack]; omega)]
  simp only [SectorsPerTrack]
  omega

theorem timeToSeek_eq (htime : 0 ≤ d.totalTicks) (hlast : 0 ≤ d.lastSector)
    (hsector : 0 ≤ sector) :
    d.timeToSeek sector = (seekTime d.lastSector sector,
      roundUp RotationTime (d.totalTicks + seekTime d.lastSector sector) -
        (d.totalTicks + seekTime d.lastSector sector)) := by
  have hseek := seekTime_nonneg d.lastSector sector
  have hover : (d.totalTicks + seekTime d.lastSector sector).tmod RotationTime =
      (d.totalTicks + seekTime d.lastSector sector) % RotationTime :=
    Int.tmod_eq_emod_of_nonneg (by omega)
  rw [timeToSeek, Int.tdiv_eq_ediv_of_nonneg hsector, Int.tdiv_eq_ediv_of_nonneg hlast]
  apply Prod.ext
  · rfl
  · change (if 0 < (d.totalTicks + seekTime d.lastSector sector).tmod RotationTime then
      RotationTime - (d.totalTicks + seekTime d.lastSector sector).tmod RotationTime else 0) = _
    rw [hover, roundUp]
    split <;> simp only [RotationTime] at * <;> omega

theorem timeAfter_eq (htime : 0 ≤ d.totalTicks) (hlast : 0 ≤ d.lastSector)
    (hsector : 0 ≤ sector) :
    d.timeAfter sector =
      roundUp RotationTime (d.totalTicks + seekTime d.lastSector sector) := by
  rw [timeAfter, timeToSeek_eq htime hlast hsector]
  omega

/-! ## The run -/

/-- What holds between two steps of a run. -/
structure TimeInv (head : Int) (d : DiskTimer) : Prop where
  totalTicks : 0 ≤ d.totalTicks
  lastSector : d.lastSector = head
  lastSector_nonneg : 0 ≤ d.lastSector
  bufferInit : RotationTime ∣ d.bufferInit
  bufferInit_nonneg : 0 ≤ d.bufferInit
  idle : d.active = false → d.bufferInit ≤ d.totalTicks
  busy : ∀ when, d.due = some when → d.bufferInit ≤ when

namespace TimeInv

variable {head : Int}

theorem new {totalTicks : Int} (h : 0 ≤ totalTicks) : TimeInv 0 (.new totalTicks) where
  totalTicks := h
  lastSector := rfl
  lastSector_nonneg := le_rfl
  bufferInit := dvd_zero _
  bufferInit_nonneg := le_rfl
  idle _ := h
  busy _ hdue := nomatch hdue

/-- The seek, with the position of the head. -/
theorem seek_eq (h : TimeInv head d) (hsector : 0 ≤ sector) :
    (d.timeToSeek sector).1 = seekTime head sector := by
  rw [timeToSeek_eq h.totalTicks h.lastSector_nonneg hsector, h.lastSector]

theorem border_eq (h : TimeInv head d) (hsector : 0 ≤ sector) :
    d.timeAfter sector = roundUp RotationTime (d.totalTicks + seekTime head sector) := by
  rw [timeAfter_eq h.totalTicks h.lastSector_nonneg hsector, h.lastSector]

/-- The border is the first one after the seek. -/
theorem border_bounds (h : TimeInv head d) (hsector : 0 ≤ sector) :
    RotationTime ∣ d.timeAfter sector ∧
      d.totalTicks + seekTime head sector ≤ d.timeAfter sector ∧
      d.timeAfter sector < d.totalTicks + seekTime head sector + RotationTime := by
  rw [h.border_eq hsector, roundUp]
  simp only [RotationTime]
  omega

/-- Outside the track buffer the request ends when the sector has passed once. -/
theorem latency_eq (h : TimeInv head d) (hsector : 0 ≤ sector) {writing : Bool}
    (hbuffer : d.inTrackBuffer sector writing = false) :
    d.totalTicks + d.computeLatency sector writing =
      firstBegin RotationTime SectorsPerTrack sector (d.totalTicks + seekTime head sector) +
        RotationTime := by
  obtain ⟨_, hborder, _⟩ := h.border_bounds hsector
  have htime := h.totalTicks
  have hseek := seekTime_nonneg head sector
  have hnonneg : 0 ≤ d.timeAfter sector := by omega
  have hturns : moduloDiff sector ((d.timeAfter sector).tdiv RotationTime) =
      (sector - d.timeAfter sector / RotationTime) % SectorsPerTrack := by
    rw [Int.tdiv_eq_ediv_of_nonneg hnonneg,
      moduloDiff_eq hsector (Int.ediv_nonneg hnonneg (by decide))]
  have hlatency : d.computeLatency sector writing = (d.timeToSeek sector).1 +
      ((d.timeToSeek sector).2 +
        moduloDiff sector ((d.timeAfter sector).tdiv RotationTime) * RotationTime) +
      RotationTime := by
    rw [computeLatency, hbuffer]
    rfl
  rw [hlatency, hturns, firstBegin, ← h.border_eq hsector, timeAfter]
  ring

/-- A sector of the track buffer has passed since `bufferInit`. -/
theorem exists_pass (h : TimeInv head d) (hidle : d.active = false) (hsector : 0 ≤ sector)
    {writing : Bool} (hbuffer : d.inTrackBuffer sector writing = true) :
    seekTime head sector = 0 ∧ ∃ t, HasPassed sector t ∧ d.bufferInit ≤ t - RotationTime ∧
      t ≤ d.totalTicks + RotationTime := by
  obtain ⟨_, hseek, hpassed⟩ := of_decide_eq_true hbuffer
  rw [h.seek_eq hsector] at hseek
  obtain ⟨_, hlow, hhigh⟩ := h.border_bounds hsector
  have hbuffered := h.bufferInit
  have hstart := h.bufferInit_nonneg
  have hpast := h.idle hidle
  rw [Int.tdiv_eq_ediv_of_nonneg hstart,
    moduloDiff_eq hsector (Int.ediv_nonneg hstart (by decide)),
    Int.tdiv_eq_ediv_of_nonneg (by omega)] at hpassed
  refine ⟨hseek, d.bufferInit + ((sector - d.bufferInit / RotationTime) % SectorsPerTrack + 1) *
    RotationTime, ?_⟩
  simp only [HasPassed, RotationTime, SectorsPerTrack, Int.ModEq] at *
  omega

/-- The times of a request are right. -/
theorem latencyOk (h : TimeInv head d) (hidle : d.active = false) (hsector : 0 ≤ sector)
    (writing : Bool) : LatencyOk head d sector writing (d.computeLatency sector writing) := by
  have hearliest (hbuffer : d.inTrackBuffer sector writing = false) :
      IsLeast {t | d.totalTicks + seekTime head sector + RotationTime ≤ t ∧ HasPassed sector t}
        (d.totalTicks + d.computeLatency sector writing) := by
    obtain ⟨⟨hle, hbegins⟩, hleast⟩ := isLeast_firstBegin (R := RotationTime)
      (n := SectorsPerTrack) (by decide) (by decide) sector
      (d.totalTicks + seekTime head sector)
    rw [h.latency_eq hsector hbuffer]
    constructor
    · refine ⟨by omega, hasPassed_iff.mpr ?_⟩
      rwa [add_sub_cancel_right]
    · rintro t ⟨ht, hpassed⟩
      have hfirst := hleast ⟨by omega, hasPassed_iff.mp hpassed⟩
      omega
  constructor
  · exact hearliest
  · intro hbuffer
    rw [computeLatency, hbuffer]
    exact ⟨(of_decide_eq_true hbuffer).1, rfl⟩
  · intro _ hlatency
    rw [hlatency]
    cases hbuffer : d.inTrackBuffer sector writing with
    | false =>
        -- the sector begins to pass right now
        obtain ⟨⟨hle, hpassed⟩, _⟩ := hearliest hbuffer
        rw [hlatency] at hle hpassed
        have hseek := seekTime_nonneg head sector
        have hpast := h.idle hidle
        refine ⟨seekTime_eq_zero.mp (by omega), _, hpassed, by omega, le_rfl⟩
    | true =>
        obtain ⟨hseek, hpass⟩ := h.exists_pass hidle hsector hbuffer
        exact ⟨seekTime_eq_zero.mp hseek, hpass⟩

/-- No request ends before its transfer. -/
theorem rotationTime_le_latency (h : TimeInv head d) (hidle : d.active = false)
    (hsector : 0 ≤ sector) (writing : Bool) :
    RotationTime ≤ d.computeLatency sector writing := by
  have hok := h.latencyOk hidle hsector writing
  cases hbuffer : d.inTrackBuffer sector writing with
  | false =>
      have hle := (hok.earliest hbuffer).1.1
      have hseek := seekTime_nonneg head sector
      omega
  | true => exact (hok.buffered hbuffer).2.ge

/-- In range, a request between two requests is accepted. -/
theorem request_eq (h : TimeInv head d) (hidle : d.active = false) (hsector : 0 ≤ sector)
    (hrange : sector < NumSectors) (writing : Bool) :
    d.request sector writing = some { d.updateLast sector with
      active := true, due := some (d.totalTicks + d.computeLatency sector writing) } := by
  have hpos : 0 < d.computeLatency sector writing :=
    lt_of_lt_of_le (by decide) (h.rotationTime_le_latency hidle hsector writing)
  rw [request, hidle, if_neg Bool.false_ne_true, if_pos ⟨hsector, hrange⟩, if_pos hpos]

/-- After a seek the track buffer starts at the next border, before the request
ends. -/
theorem updateLast_bufferInit (h : TimeInv head d) (hidle : d.active = false)
    (hsector : 0 ≤ sector) (writing : Bool) :
    RotationTime ∣ (d.updateLast sector).bufferInit ∧ 0 ≤ (d.updateLast sector).bufferInit ∧
      (d.updateLast sector).bufferInit ≤ d.totalTicks + d.computeLatency sector writing := by
  have hvalue : (d.updateLast sector).bufferInit =
      if (d.timeToSeek sector).1 ≠ 0 then d.timeAfter sector else d.bufferInit := rfl
  have htime := h.totalTicks
  rw [hvalue]
  by_cases hseek : (d.timeToSeek sector).1 ≠ 0
  · rw [if_pos hseek]
    obtain ⟨hborder, hlow, hhigh⟩ := h.border_bounds hsector
    have hnonneg := seekTime_nonneg head sector
    have hbuffer : d.inTrackBuffer sector writing = false :=
      decide_eq_false fun hin => hseek hin.2.1
    have hend := ((h.latencyOk hidle hsector writing).earliest hbuffer).1.1
    exact ⟨hborder, by omega, by omega⟩
  · rw [if_neg hseek]
    have hpast := h.idle hidle
    have hlatency := h.rotationTime_le_latency hidle hsector writing
    simp only [RotationTime] at hlatency
    exact ⟨h.bufferInit, h.bufferInit_nonneg, by omega⟩

/-- A request keeps the invariant. -/
theorem request (h : TimeInv head d) {writing : Bool}
    (hrequest : d.request sector writing = some d') : TimeInv sector d' := by
  have hidle : d.active = false := by
    cases hactive : d.active with
    | false => rfl
    | true =>
        rw [DiskTimer.request, hactive] at hrequest
        cases hrequest
  have hrange : 0 ≤ sector ∧ sector < NumSectors := by
    by_contra hout
    rw [DiskTimer.request, hidle, if_neg Bool.false_ne_true, if_neg hout] at hrequest
    cases hrequest
  have hinit := h.updateLast_bufferInit hidle hrange.1 writing
  rw [h.request_eq hidle hrange.1 hrange.2] at hrequest
  cases hrequest
  refine ⟨h.totalTicks, rfl, hrange.1, hinit.1, hinit.2.1, ?_, ?_⟩
  · intro hactive
    cases hactive
  · intro when hdue
    obtain rfl := Option.some.inj hdue
    exact hinit.2.2

theorem step {a : DiskAction} (h : TimeInv head d) (hstep : d.step a = some d') :
    TimeInv (moveHead head a) d' := by
  cases a with
  | tick ticks =>
      cases hstep
      have htime := h.totalTicks
      refine ⟨?_, h.lastSector, h.lastSector_nonneg, h.bufferInit, h.bufferInit_nonneg, ?_, h.busy⟩
      · show 0 ≤ d.totalTicks + ticks
        omega
      · intro hidle
        have hpast := h.idle hidle
        show d.bufferInit ≤ d.totalTicks + ticks
        omega
  | readRequest sectorNumber => exact h.request hstep
  | writeRequest sectorNumber => exact h.request hstep
  | handleInterrupt =>
      obtain ⟨when, hdue, hdone⟩ := Option.bind_eq_some_iff.mp hstep
      split at hdone
      · rename_i hwhen
        cases hdone
        exact ⟨h.totalTicks, h.lastSector, h.lastSector_nonneg, h.bufferInit, h.bufferInit_nonneg,
          fun _ => le_trans (h.busy when hdue) hwhen, fun _ hnone => nomatch hnone⟩
      · cases hdone

theorem of_run {totalTicks : Int} (htime : 0 ≤ totalTicks) {as : List DiskAction}
    (hrun : run DiskTimer.step (.new totalTicks) as = some d) : TimeInv (headSector as) d := by
  refine run_history (I := fun d h => TimeInv (headSector h) d) (h := []) ?_ rfl (new htime) hrun
  intro d h a rest d' _ hinv hstep
  rw [headSector, List.foldl_append]
  exact hinv.step hstep

end TimeInv

/-- **The latency model.**  In every run `bufferInit` is at a border between two
sectors, and a request that is made when the one before it is done is accepted and
takes the time it has to take. -/
theorem latency_of_run {totalTicks : Int} (htime : 0 ≤ totalTicks) {as : List DiskAction}
    (hrun : run DiskTimer.step (.new totalTicks) as = some d) :
    RotationTime ∣ d.bufferInit ∧
      ∀ (newSector : Int) writing, d.active = false → 0 ≤ newSector → newSector < NumSectors →
        ∃ latency d', d.request newSector writing = some d' ∧
          d'.due = some (d.totalTicks + latency) ∧
          LatencyOk (headSector as) d newSector writing latency := by
  have h := TimeInv.of_run htime hrun
  refine ⟨h.bufferInit, ?_⟩
  intro newSector writing hidle hsector hrange
  exact ⟨_, _, h.request_eq hidle hsector hrange writing, rfl,
    h.latencyOk hidle hsector writing⟩

/-- Sector 33 is read at time 10, and later once more from the track buffer. -/
theorem latency_of_run_track_buffer :
    ∃ d latency d', run DiskTimer.step (.new 0)
        [.tick 10, .readRequest 33, .tick 17490, .handleInterrupt] = some d ∧
      d.inTrackBuffer 33 false = true ∧ d.request 33 false = some d' ∧
      d'.due = some (d.totalTicks + latency) ∧ LatencyOk 33 d 33 false latency := by
  obtain ⟨_, hrequest⟩ := latency_of_run (le_refl (0 : Int))
    (show run DiskTimer.step _ [.tick 10, .readRequest 33, .tick 17490, .handleInterrupt] =
      some _ from rfl)
  obtain ⟨latency, d', hd', hdue, hok⟩ := hrequest 33 false rfl (by decide) (by decide)
  exact ⟨_, latency, d', rfl, rfl, hd', hdue, hok⟩

end DiskTimer

end Nachos.Machine

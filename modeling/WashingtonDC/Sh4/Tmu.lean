import WashingtonDC.EventSlot
import WashingtonDC.Lockstep
import Mathlib.Data.UInt

/-!
# The timer unit of the SH4

`sh4_tmu.c`: three down-counters that are brought up to date only when a register is accessed or
an underflow is due. Each channel has an event for its next underflow. Cycle stamps are unbounded
here; in the source they have 64 bits. `chan_accum` has 32 bits, and that it can overflow is part
of the model. The handler of an event runs in the cycle the event is due, as the scheduler
arranges it, and the interrupts it raises are only counted.
-/
namespace Sh4.Tmu

open EventSlot

/-! ## Registers -/

abbrev tcrUnfMask : UInt16 := 0x100
abbrev tcrIcpfMask : UInt16 := 0x200
abbrev tcrUnieMask : UInt16 := 0x20
abbrev tcrTpscMask : UInt16 := 0x7

/-- `SH4_TSTR_CHAN0_MASK` to `SH4_TSTR_CHAN2_MASK` are the same mask: all three shifts are 0. -/
abbrev tstrChanMask : UInt32 := 1

/-- `TMU_DIV * SH4_CLOCK_SCALE`, the cycles of the clock in a cycle of the timer unit. -/
abbrev tmuDiv : Nat := 4 * 27

/-- By how much the prescaler divides. Other selections are an error. -/
def clockDiv (tcr : UInt16) : Option Nat :=
  match (tcr &&& tcrTpscMask).toNat with
  | 0 => some 4
  | 1 => some 16
  | 2 => some 64
  | 3 => some 256
  | 4 => some 1024
  | _ => none

/-! ## Channels -/

/-- `event` is the event of the channel with its flag `chan_event_scheduled`, and `interrupts`
counts the calls of `chan_raise_int`. -/
structure Chan where
  tcor : UInt32
  tcnt : UInt32
  tcr : UInt16
  stampLastSync : Nat
  accum : Nat
  unf : Bool
  event : Flagged
  interrupts : Nat

namespace Chan

variable (c : Chan) (enabled : Bool) (stamp : Nat)

def clockDiv : Except Fault Nat :=
  match Tmu.clockDiv c.tcr with
  | some div => .ok div
  | none => .error .raised

/-- The counter after `accum` cycles of the timer unit. An underflow reloads it, however many
periods have passed. -/
def count (accum div : Nat) : Chan :=
  if div ≤ accum then
    if c.tcnt.toNat < accum / div then
      { c with unf := true, tcnt := c.tcor, tcr := c.tcr ||| tcrUnfMask, accum := accum % div }
    else { c with tcnt := c.tcnt - UInt32.ofNat (accum / div), accum := accum % div }
  else { c with accum := accum }

/-- `tmu_chan_sync`, with the stamp of the timer unit. -/
def sync (now : Nat) : Except Fault Chan :=
  let elapsed := now - c.stampLastSync
  let synced := { c with stampLastSync := now }
  if elapsed = 0 then .ok synced
  else if !enabled then .ok synced
  else c.clockDiv.map fun div => synced.count ((c.accum + elapsed) % 2 ^ 32) div

def nextChanEvent (div : Nat) : Nat := (c.tcnt.toNat + 1) * div - c.accum

def eventUnschedMaybe : Except Fault Chan :=
  c.event.unschedMaybe.map fun event => { c with event := event }

def eventSchedNext : Except Fault Chan :=
  if !enabled then .ok { c with event := c.event.clear }
  else do
    let div ← c.clockDiv
    let event ← c.event.sched ((c.nextChanEvent div + stamp / tmuDiv) * tmuDiv)
    .ok { c with event := event }

/-- An event that is scheduled is cancelled before the next one is scheduled. -/
def eventResched : Except Fault Chan := do
  let c ← c.eventUnschedMaybe
  c.eventSchedNext enabled stamp

def raiseUnf : Chan :=
  let c := { c with unf := false, tcr := c.tcr ||| tcrUnfMask }
  if c.tcr &&& tcrUnieMask ≠ 0 then { c with interrupts := c.interrupts + 1 } else c

/-- The handler of the event, after the event was taken from the list. -/
def eventHandler : Except Fault Chan := do
  let c ← c.sync enabled (stamp / tmuDiv)
  let c ← c.eventSchedNext enabled stamp
  .ok (if c.unf then c.raiseUnf else c)

/-- The clock reaches `stamp`. -/
def tick : Except Fault Chan :=
  if c.event.event.isDue stamp then { c with event := c.event.pop }.eventHandler enabled stamp
  else .ok c

/-! ## Register accesses -/

/-- The part of a write to TSTR before the register is written. The condition is that of the
source, `!(TSTR & mask) ^ (tmp & mask)`: it holds if bit 0 does not change. -/
def tstrBefore (tstr tmp : UInt32) : Except Fault Chan :=
  if (if tstr &&& tstrChanMask = 0 then 1 else 0) ^^^ (tmp &&& tstrChanMask) ≠ 0 then do
    let c ← c.sync enabled (stamp / tmuDiv)
    let c := { c with accum := 0 }
    if tmp &&& tstrChanMask ≠ 0 then
      if !c.event.scheduled then c.eventSchedNext enabled stamp else .ok c
    else c.eventUnschedMaybe
  else .ok c

def tstrAfter : Except Fault Chan := do
  let c ← c.sync enabled (stamp / tmuDiv)
  c.eventResched enabled stamp

def clearedFlags (old new : UInt16) : UInt16 :=
  let new := if new &&& tcrIcpfMask ≠ 0 ∧ old &&& tcrIcpfMask = 0 then new &&& ~~~tcrIcpfMask else new
  if new &&& tcrUnfMask ≠ 0 ∧ old &&& tcrUnfMask = 0 then new &&& ~~~tcrUnfMask else new

def setTcr (old new : UInt16) : Chan :=
  { c with
    tcr := new
    accum := if old &&& tcrTpscMask ≠ new &&& tcrTpscMask then 0 else c.accum }

def tcrWriteHandler (val : UInt32) : Except Fault Chan := do
  let synced ← c.sync enabled (stamp / tmuDiv)
  let written := synced.setTcr c.tcr (clearedFlags c.tcr val.toUInt16)
  let c ← written.sync enabled (stamp / tmuDiv)
  c.eventResched enabled stamp

def tcntWriteHandler (val : UInt32) : Except Fault Chan := do
  let c ← c.sync enabled (stamp / tmuDiv)
  let c ← { c with tcnt := val }.sync enabled (stamp / tmuDiv)
  c.eventResched enabled stamp

/-! ### The event of a channel -/

section
variable {c enabled stamp}

theorem clockDiv_sound : Sound c.clockDiv fun _ => True := by
  unfold Chan.clockDiv
  split <;> trivial

theorem count_event {accum div : Nat} : (c.count accum div).event = c.event := by
  unfold count
  split
  · split <;> rfl
  · rfl

theorem sync_sound {now : Nat} : Sound (c.sync enabled now) fun c' => c'.event = c.event := by
  unfold sync
  dsimp only
  split
  · rfl
  · split
    · rfl
    · exact clockDiv_sound.map fun div _ => count_event

theorem eventUnschedMaybe_sound (honest : c.event.Honest) :
    Sound c.eventUnschedMaybe fun c' => c'.event = .idle := by
  unfold eventUnschedMaybe
  rw [honest.unschedMaybe]
  rfl

theorem eventSchedNext_sound (absent : c.event.event = none) :
    Sound (c.eventSchedNext enabled stamp) (·.event.Honest) := by
  unfold eventSchedNext
  split
  · exact Flagged.clear_honest absent
  · refine clockDiv_sound.bind fun div _ => ?_
    exact (Flagged.sched_sound absent).bind fun event honest => honest

theorem eventResched_sound (honest : c.event.Honest) :
    Sound (c.eventResched enabled stamp) (·.event.Honest) := by
  refine (eventUnschedMaybe_sound honest).bind fun c' idle => ?_
  exact eventSchedNext_sound (by rw [idle]; rfl)

theorem eventHandler_sound (absent : c.event.event = none) :
    Sound (c.eventHandler enabled stamp) (·.event.Honest) := by
  refine sync_sound.bind fun c1 event1 => ?_
  refine (eventSchedNext_sound (by rw [event1, absent])).bind fun c2 honest => ?_
  change (if c2.unf then c2.raiseUnf else c2).event.Honest
  split
  · unfold raiseUnf
    dsimp only
    split <;> exact honest
  · exact honest

section
variable (honest : c.event.Honest)
include honest

theorem tick_sound : Sound (c.tick enabled stamp) (·.event.Honest) := by
  unfold tick
  split
  · exact eventHandler_sound rfl
  · exact honest

theorem tstrBefore_sound {tstr tmp : UInt32} :
    Sound (c.tstrBefore enabled stamp tstr tmp) (·.event.Honest) := by
  unfold tstrBefore
  generalize (if tstr &&& tstrChanMask = 0 then (1 : UInt32) else 0) = stopped
  split
  · refine sync_sound.bind fun c1 event1 => ?_
    rw [← event1] at honest
    dsimp only
    split
    · split
      · rename_i unscheduled
        apply eventSchedNext_sound
        rw [Flagged.Honest] at honest
        simpa [honest] using unscheduled
      · exact honest
    · refine (eventUnschedMaybe_sound (c := { c1 with accum := 0 }) honest).imp fun c2 idle => ?_
      rw [idle]
      rfl
  · exact honest

theorem tstrAfter_sound : Sound (c.tstrAfter enabled stamp) (·.event.Honest) :=
  sync_sound.bind fun c1 event1 => eventResched_sound (by rwa [event1])

theorem tcrWriteHandler_sound {val : UInt32} :
    Sound (c.tcrWriteHandler enabled stamp val) (·.event.Honest) :=
  sync_sound.bind fun _ event1 => tstrAfter_sound (event1 ▸ honest)

theorem tcntWriteHandler_sound {val : UInt32} :
    Sound (c.tcntWriteHandler enabled stamp val) (·.event.Honest) :=
  sync_sound.bind fun _ event1 => tstrAfter_sound (event1 ▸ honest)

end

end

end Chan

end Sh4.Tmu

/-! ## The timer unit -/

structure Sh4.Tmu where
  stamp : Nat
  tstr : UInt32
  chan0 : Tmu.Chan
  chan1 : Tmu.Chan
  chan2 : Tmu.Chan

namespace Sh4.Tmu

open EventSlot

inductive Action
  | tick
  | readTstr
  | writeTstr (val : UInt32)
  | readTcr (chan : Fin 3)
  | writeTcr (chan : Fin 3) (val : UInt32)
  | readTcor (chan : Fin 3)
  | writeTcor (chan : Fin 3) (val : UInt32)
  | readTcnt (chan : Fin 3)
  | writeTcnt (chan : Fin 3) (val : UInt32)

variable (t : Tmu)

def chan : Fin 3 → Chan
  | 0 => t.chan0
  | 1 => t.chan1
  | 2 => t.chan2

abbrev firstChan : Fin 3 := 0

def chanEnabled (i : Fin 3) : Bool := t.tstr &&& ((1 : UInt32) <<< UInt32.ofNat i.val) != 0

/-- The stamp of the timer unit, `tmu_cycle_stamp`. -/
def now : Nat := t.stamp / tmuDiv

def setChan (i : Fin 3) (c : Chan) : Tmu :=
  match i with
  | 0 => { t with chan0 := c }
  | 1 => { t with chan1 := c }
  | 2 => { t with chan2 := c }

theorem setChan_frame (t : Tmu) (j : Fin 3) (c : Chan) :
    (t.setChan j c).stamp = t.stamp ∧ (t.setChan j c).tstr = t.tstr := by
  unfold setChan
  split <;> exact ⟨rfl, rfl⟩

theorem setChan_chan (t : Tmu) (i j : Fin 3) (c : Chan) :
    (t.setChan j c).chan i = if i = j then c else t.chan i := by
  match i, j with
  | 0, 0 | 0, 1 | 0, 2 | 1, 0 | 1, 1 | 1, 2 | 2, 0 | 2, 1 | 2, 2 => rfl

def each (f : Fin 3 → Chan → Except Fault Chan) : Except Fault Tmu := do
  let chan0 ← f 0 t.chan0
  let chan1 ← f 1 t.chan1
  let chan2 ← f 2 t.chan2
  .ok { t with chan0, chan1, chan2 }

def tick : Except Fault Tmu :=
  { t with stamp := t.stamp + 1 }.each fun i c => c.tick (t.chanEnabled i) (t.stamp + 1)

def tstrWriteHandler (val : UInt32) : Except Fault Tmu := do
  let tmp := val &&& 7
  let t ← t.each fun i c => c.tstrBefore (t.chanEnabled i) t.stamp t.tstr tmp
  let t := { t with tstr := tmp }
  t.each fun i c => c.tstrAfter (t.chanEnabled i) t.stamp

def syncChan (i : Fin 3) : Except Fault Tmu :=
  ((t.chan i).sync (t.chanEnabled i) t.now).map (t.setChan i)

def access : Action → Except Fault (Option UInt32 × Tmu)
  | .tick => t.tick.map (none, ·)
  | .readTstr => .ok (some t.tstr, t)
  | .writeTstr val => (t.tstrWriteHandler val).map (none, ·)
  | .readTcr i => (t.syncChan i).map fun t => (some (t.chan i).tcr.toUInt32, t)
  | .writeTcr i val =>
    ((t.chan i).tcrWriteHandler (t.chanEnabled i) t.stamp val).map fun c => (none, t.setChan i c)
  | .readTcor i => .ok (some (t.chan i).tcor, t)
  | .writeTcor i val => .ok (none, t.setChan i { t.chan i with tcor := val })
  | .readTcnt i => (t.syncChan i).map fun t => (some (t.chan i).tcnt, t)
  | .writeTcnt i val =>
    ((t.chan i).tcntWriteHandler (t.chanEnabled i) t.stamp val).map fun c => (none, t.setChan i c)

/-- An access with the state before it. -/
structure Happened where
  action : Action
  before : Tmu
  value : Option UInt32

def step (a : Action) : Option (Happened × Tmu) :=
  (t.access a).toOption.map fun r => (⟨a, t, r.1⟩, r.2)

def resetChan : Chan := ⟨0xffffffff, 0xffffffff, 0, 0, 0, false, .idle, 0⟩

def reset : Tmu := ⟨0, 0, resetChan, resetChan, resetChan⟩

/-! ### The events of the channels -/

/-- The flag of each channel says whether its event is in the list. -/
def Honest : Prop := ∀ i, (t.chan i).event.Honest

section
variable {t}

theorem setChan_honest {i : Fin 3} {c : Chan} (honest : t.Honest) (hc : c.event.Honest) :
    (t.setChan i c).Honest := by
  intro j
  rw [setChan_chan]
  split
  · exact hc
  · exact honest j

theorem each_sound {f : Fin 3 → Chan → Except Fault Chan}
    (hf : ∀ i, Sound (f i (t.chan i)) (·.event.Honest)) : Sound (t.each f) Honest := by
  refine (hf 0).bind fun c0 honest0 => ?_
  refine (hf 1).bind fun c1 honest1 => ?_
  refine (hf 2).bind fun c2 honest2 => ?_
  rintro ⟨_ | _ | _ | n, hn⟩
  · exact honest0
  · exact honest1
  · exact honest2
  · omega

theorem tstrWriteHandler_sound {val : UInt32} (honest : t.Honest) :
    Sound (t.tstrWriteHandler val) Honest := by
  refine (each_sound fun i => Chan.tstrBefore_sound (honest i)).bind fun t1 honest1 => ?_
  exact each_sound (t := { t1 with tstr := val &&& 7 }) fun i => Chan.tstrAfter_sound (honest1 i)

theorem syncChan_sound {i : Fin 3} (honest : t.Honest) : Sound (t.syncChan i) Honest :=
  Chan.sync_sound.map fun c event => setChan_honest honest (by rw [event]; exact honest i)

theorem access_sound (honest : t.Honest) (a : Action) : Sound (t.access a) (·.2.Honest) := by
  cases a with
  | tick => exact (each_sound fun i => Chan.tick_sound (honest i)).map fun t' honest' => honest'
  | readTstr => exact honest
  | writeTstr val => exact (tstrWriteHandler_sound honest).map fun t' honest' => honest'
  | readTcr _ | readTcnt _ => exact (syncChan_sound honest).map fun t' honest' => honest'
  | writeTcr i val =>
    exact (Chan.tcrWriteHandler_sound (honest i)).map fun c hc => setChan_honest honest hc
  | readTcor i => exact honest
  | writeTcor i val => exact setChan_honest honest (honest i)
  | writeTcnt i val =>
    exact (Chan.tcntWriteHandler_sound (honest i)).map fun c hc => setChan_honest honest hc

end

end Sh4.Tmu

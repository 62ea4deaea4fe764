import WashingtonDC.EventSlot
import Mathlib.Data.UInt

/-!
# The sync pulse generator

`spg.c`: the position of the raster, brought up to date on demand, and the events of the three
blanking interrupts. Cycle stamps are unbounded here; in the source they have 64 bits. Numbers that
are `unsigned` in the source have 32 bits. A division by zero ends the program like an error. The
registers that only `pvr2_spg_get_status` reads and the flags for doubling pixels are left out.
-/
namespace Pvr2

open EventSlot

/-- `SPG_VCLK_DIV`. -/
abbrev spgVclkDiv : Nat := 100

structure Spg where
  hblankInt : UInt32
  vblankInt : UInt32
  load : UInt32
  control : UInt32
  pclkDiv : UInt32
  lastSyncRounded : Nat
  rasterX : UInt32
  rasterY : UInt32
  hblankEvent : Flagged
  vblankInEvent : Flagged
  vblankOutEvent : Flagged

namespace Spg

variable (spg : Spg)

/-! ## Fields of the registers -/

def hcount : UInt32 := (spg.load &&& 0x3ff) + 1

def vcount : UInt32 := ((spg.load >>> 16) &&& 0x3ff) + 1

def hblankIntMode : UInt32 := (spg.hblankInt >>> 12) &&& 0x3

def hblankIntCompVal : UInt32 := spg.hblankInt &&& 0x3ff

def vblankInIntLine : UInt32 := spg.vblankInt &&& 0x3ff

def vblankOutIntLine : UInt32 := (spg.vblankInt >>> 16) &&& 0x3ff

def interlace : Bool := spg.control &&& 0x10 != 0

def getPclkDiv : UInt32 := if spg.interlace then spg.pclkDiv else spg.pclkDiv * 2

def pixelDiv : Nat := spgVclkDiv * spg.getPclkDiv.toNat

/-! ## The raster -/

variable (stamp : Nat)

def sync : Spg :=
  let delta := stamp - spg.lastSyncRounded
  if spg.pixelDiv ≤ delta then
    let x := spg.rasterX + UInt32.ofNat (delta / spg.pixelDiv)
    { spg with
      lastSyncRounded := spg.pixelDiv * (stamp / spg.pixelDiv)
      rasterX := x % spg.hcount
      rasterY := (spg.rasterY + x / spg.hcount) % spg.vcount }
  else spg

/-- The stamp `pixels` pixels from now. -/
def pixelsFromNow (pixels : UInt32) : Nat :=
  spg.pixelDiv * (pixels.toNat + stamp / spg.pixelDiv)

/-! ## Events -/

def nextHblankPclk : Except Fault UInt32 :=
  match spg.hblankIntMode.toNat with
  | 0 =>
    if spg.hblankIntCompVal ≤ spg.rasterY then
      .ok ((spg.vcount - spg.rasterY + spg.hblankIntCompVal) * spg.hcount - spg.rasterX)
    else .ok ((spg.hblankIntCompVal - spg.rasterY) * spg.hcount - spg.rasterX)
  | 1 =>
    if spg.hblankIntCompVal = 0 then .error .raised
    else
      let line := (1 + (spg.rasterY + 1) / spg.hblankIntCompVal) * spg.hblankIntCompVal - 1
      if line < spg.vcount then .ok ((line - spg.rasterY) * spg.hcount - spg.rasterX)
      else .ok ((spg.vcount - spg.rasterY + line) * spg.hcount - spg.rasterX)
  | 2 => .ok (spg.hcount - spg.rasterX)
  | _ => .error .raised

def schedNextHblankEvent : Except Fault Spg := do
  let pixels ← spg.nextHblankPclk
  let event ← spg.hblankEvent.sched (spg.pixelsFromNow stamp pixels)
  .ok { spg with hblankEvent := event }

def pixelsUntil (line : UInt32) : UInt32 :=
  (if spg.rasterY < line then line - spg.rasterY else spg.vcount - spg.rasterY + line) *
    spg.hcount - spg.rasterX

def schedNextVblankInEvent : Except Fault Spg :=
  (spg.vblankInEvent.sched (spg.pixelsFromNow stamp (spg.pixelsUntil spg.vblankInIntLine))).map
    fun event => { spg with vblankInEvent := event }

def schedNextVblankOutEvent : Except Fault Spg :=
  (spg.vblankOutEvent.sched (spg.pixelsFromNow stamp (spg.pixelsUntil spg.vblankOutIntLine))).map
    fun event => { spg with vblankOutEvent := event }

def schedAll : Except Fault Spg := do
  let spg ← spg.schedNextHblankEvent stamp
  let spg ← spg.schedNextVblankInEvent stamp
  spg.schedNextVblankOutEvent stamp

def unschedAll : Except Fault Spg := do
  let hblankEvent ← spg.hblankEvent.unschedMaybe
  let vblankInEvent ← spg.vblankInEvent.unschedMaybe
  let vblankOutEvent ← spg.vblankOutEvent.unschedMaybe
  .ok { spg with hblankEvent, vblankInEvent, vblankOutEvent }

/-! ## Writes to the registers -/

/-- All events are cancelled, a register is changed, and the events are scheduled anew. -/
def reconfigure (change : Spg → Spg) : Except Fault Spg := do
  let spg ← (spg.sync stamp).unschedAll
  ((change spg).sync stamp).schedAll stamp

def setHblankInt (val : UInt32) : Except Fault Spg :=
  spg.reconfigure stamp fun spg => { spg with hblankInt := val }

def setVblankInt (val : UInt32) : Except Fault Spg :=
  spg.reconfigure stamp fun spg => { spg with vblankInt := val }

def setLoad (val : UInt32) : Except Fault Spg :=
  spg.reconfigure stamp fun spg => { spg with load := val }

def setPclkDiv (val : UInt32) : Except Fault Spg :=
  if val ≠ 1 ∧ val ≠ 2 then .error .raised
  else spg.reconfigure stamp fun spg => { spg with pclkDiv := val }

def setControl (val : UInt32) : Spg := { spg with control := val }

/-- `spg_init`, after the structure has been zeroed. -/
def init : Except Fault Spg :=
  schedAll ⟨0x031d0000, 0x00150104, 0x01060359, 0, 2, 0, 0, 0, .idle, .idle, .idle⟩ stamp

/-! ## What is known about the events -/

structure Honest : Prop where
  hblank : spg.hblankEvent.Honest
  vblankIn : spg.vblankInEvent.Honest
  vblankOut : spg.vblankOutEvent.Honest

variable {spg stamp}

theorem sync_events (spg : Spg) (stamp : Nat) :
    (spg.sync stamp).hblankEvent = spg.hblankEvent ∧
      (spg.sync stamp).vblankInEvent = spg.vblankInEvent ∧
      (spg.sync stamp).vblankOutEvent = spg.vblankOutEvent := by
  unfold sync
  dsimp only
  split <;> exact ⟨rfl, rfl, rfl⟩

theorem nextHblankPclk_sound : Sound spg.nextHblankPclk fun _ => True := by
  unfold nextHblankPclk
  split
  · split <;> trivial
  · split
    · rfl
    · dsimp only
      split <;> trivial
  · trivial
  · rfl

section
variable (spg stamp)

theorem schedNextHblankEvent_sound (absent : spg.hblankEvent.event = none) :
    Sound (spg.schedNextHblankEvent stamp) fun spg' =>
      ∃ event, spg' = { spg with hblankEvent := event } ∧ event.Honest := by
  refine nextHblankPclk_sound.bind fun pixels _ => ?_
  exact (Flagged.sched_sound absent).bind fun event honest => ⟨event, rfl, honest⟩

theorem schedNextVblankInEvent_sound (absent : spg.vblankInEvent.event = none) :
    Sound (spg.schedNextVblankInEvent stamp) fun spg' =>
      ∃ event, spg' = { spg with vblankInEvent := event } ∧ event.Honest :=
  (Flagged.sched_sound absent).map fun event honest => ⟨event, rfl, honest⟩

theorem schedNextVblankOutEvent_sound (absent : spg.vblankOutEvent.event = none) :
    Sound (spg.schedNextVblankOutEvent stamp) fun spg' =>
      ∃ event, spg' = { spg with vblankOutEvent := event } ∧ event.Honest :=
  (Flagged.sched_sound absent).map fun event honest => ⟨event, rfl, honest⟩

theorem schedAll_sound (hblank : spg.hblankEvent.event = none)
    (vblankIn : spg.vblankInEvent.event = none) (vblankOut : spg.vblankOutEvent.event = none) :
    Sound (spg.schedAll stamp) Honest := by
  refine (spg.schedNextHblankEvent_sound stamp hblank).bind ?_
  rintro _ ⟨event1, rfl, honest1⟩
  refine (schedNextVblankInEvent_sound { spg with hblankEvent := event1 } stamp vblankIn).bind ?_
  rintro _ ⟨event2, rfl, honest2⟩
  refine (schedNextVblankOutEvent_sound
    { spg with hblankEvent := event1, vblankInEvent := event2 } stamp vblankOut).imp ?_
  rintro _ ⟨event3, rfl, honest3⟩
  exact ⟨honest1, honest2, honest3⟩

end

section
variable (honest : spg.Honest)
include honest

theorem Honest.unschedAll :
    spg.unschedAll =
      .ok { spg with hblankEvent := .idle, vblankInEvent := .idle, vblankOutEvent := .idle } := by
  unfold Spg.unschedAll
  rw [honest.hblank.unschedMaybe, honest.vblankIn.unschedMaybe, honest.vblankOut.unschedMaybe]
  rfl

theorem Honest.sync : (spg.sync stamp).Honest := by
  obtain ⟨h1, h2, h3⟩ := spg.sync_events stamp
  exact ⟨h1 ▸ honest.hblank, h2 ▸ honest.vblankIn, h3 ▸ honest.vblankOut⟩

theorem Honest.reconfigure {change : Spg → Spg}
    (keeps : ∀ spg, (change spg).hblankEvent = spg.hblankEvent ∧ (change spg).vblankInEvent = spg.vblankInEvent ∧ (change spg).vblankOutEvent = spg.vblankOutEvent) :
    Sound (spg.reconfigure stamp change) Honest := by
  unfold Spg.reconfigure
  rw [honest.sync.unschedAll]
  obtain ⟨k1, k2, k3⟩ := keeps
    { spg.sync stamp with
      hblankEvent := .idle, vblankInEvent := .idle, vblankOutEvent := .idle }
  obtain ⟨s1, s2, s3⟩ := sync_events
    (change { spg.sync stamp with
      hblankEvent := .idle, vblankInEvent := .idle, vblankOutEvent := .idle }) stamp
  exact schedAll_sound _ stamp (by rw [s1, k1]; rfl) (by rw [s2, k2]; rfl) (by rw [s3, k3]; rfl)

variable {val : UInt32}

theorem Honest.setHblankInt : Sound (spg.setHblankInt stamp val) Honest :=
  honest.reconfigure fun _ => ⟨rfl, rfl, rfl⟩

theorem Honest.setVblankInt : Sound (spg.setVblankInt stamp val) Honest :=
  honest.reconfigure fun _ => ⟨rfl, rfl, rfl⟩

theorem Honest.setLoad : Sound (spg.setLoad stamp val) Honest :=
  honest.reconfigure fun _ => ⟨rfl, rfl, rfl⟩

theorem Honest.setPclkDiv : Sound (spg.setPclkDiv stamp val) Honest := by
  unfold Spg.setPclkDiv
  split
  · rfl
  · exact honest.reconfigure fun _ => ⟨rfl, rfl, rfl⟩

end

end Spg

end Pvr2

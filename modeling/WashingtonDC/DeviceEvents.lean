import WashingtonDC.Pvr2.Spg
import WashingtonDC.Sh4.Tmu

/-!
# The events of the devices

Every static event of the devices on the clock of the SH4, and everything that schedules, cancels
or fires one. An event may be scheduled only when it is not in the event list of the clock, and
cancelled only when it is. All devices keep to this but the two DMA engines, which schedule their
events without a check: a second transfer that is started before the event of the first has fired
schedules it twice.

What a transfer reads and writes is not modelled, only the accesses to devices that it makes. An
event that is in the list may fire at any time. Handlers raise errors of their own in states of
their devices that are not part of the model.
-/
namespace DeviceEvents

open EventSlot Pvr2

/-- Events that are scheduled once for each request. -/
inductive Shot
  | refreshIntc
  | ch2Dma
  | aicaDma
  | opComplete
  | opModComplete
  | transComplete
  | transModComplete
  | ptComplete
  | renderComplete
  | yuvComplete
  | gdromInt
  | mapleDma
deriving DecidableEq

inductive Event
  | tmuChan (chan : Fin 3)
  | hblank
  | vblankIn
  | vblankOut
  | shot (s : Shot)

/-- The display lists of the tile accelerator. The last three are not valid. -/
inductive DisplayList
  | opaqueList
  | opaqueModList
  | transList
  | transModList
  | punchThroughList
  | list5
  | list6
  | list7
deriving DecidableEq

/-- `SCHED_FREQUENCY / 1024`. -/
abbrev intDelay : Nat := 5400000000 / 1024

def Shot.delay : Shot → Nat
  | .refreshIntc | .ch2Dma | .aicaDma | .mapleDma => 0
  | _ => intDelay

/-- `curList` is the display list that is open. -/
structure Devices where
  tmu : Sh4.Tmu
  spg : Spg
  shot : Shot → Flagged
  curList : Option DisplayList
  listSubmitted : DisplayList → Bool
  dmatcr2 : UInt32
  c2dstat : UInt32
  c2dlen : UInt32
  addir : UInt32

/-- What software or a DMA transfer does to a device. -/
inductive Access
  | tmu (a : Sh4.Tmu.Action)
  | spgHblankInt (val : UInt32)
  | spgVblankInt (val : UInt32)
  | spgLoad (val : UInt32)
  | spgControl (val : UInt32)
  | fbRCtrl (val : UInt32)
  | intcReg
  | dmatcr2 (val : UInt32)
  | c2dstat (val : UInt32)
  | c2dlen (val : UInt32)
  | addir (val : UInt32)
  | pktHdr (list : DisplayList)
  | pktEndOfList
  | taReinit
  | startRender
  | yuvFrame
  | gdromRequest
  | mapleFrame

/-- `transfer` are the accesses of a DMA transfer. An event enters an interrupt if `enters`;
`again` is about the second interrupt that channel 2 of the DMA controller raises. -/
inductive Op
  | advance (cycles : Nat)
  | access (a : Access)
  | srChange (oldSr newSr : UInt32)
  | c2dst (val : UInt32) (transfer : List Access)
  | adst (val : UInt32) (transfer : List Access)
  | fire (e : Event) (enters again : Bool)

abbrev Result : Type := Except Fault Devices

namespace Devices

variable (d : Devices)

def stamp : Nat := d.tmu.stamp

def setShot (s : Shot) (f : Flagged) : Devices := { d with shot := Function.update d.shot s f }

def setSpg (spg : Spg) : Devices := { d with spg := spg }

/-! ## Requests that are guarded by a flag -/

def request (s : Shot) : Result :=
  ((d.shot s).schedOnce (d.stamp + s.delay)).map (d.setShot s)

def sh4RefreshIntcDeferred : Result := d.request .refreshIntc

def pvr2YuvScheduleInt : Result := d.request .yuvComplete

def gdromDelayedProcessing : Result := d.request .gdromInt

def mapleDmaComplete : Result := d.request .mapleDma

def pvr2TaReinit : Devices := { d with listSubmitted := fun _ => false }

def pvr2TaStartrender : Result :=
  { d.pvr2TaReinit with curList := none }.request .renderComplete

def onPktHdrReceived (list : DisplayList) : Result :=
  if d.curList = some list then .ok d
  else
    let open_ := d.curList.getD list
    if d.listSubmitted open_ then .error .raised else .ok { d with curList := some open_ }

def listComplete : DisplayList → Option Shot
  | .opaqueList => some .opComplete
  | .opaqueModList => some .opModComplete
  | .transList => some .transComplete
  | .transModList => some .transModComplete
  | .punchThroughList => some .ptComplete
  | _ => none

def onPktEndOfListReceived : Result :=
  match d.curList with
  | none => .ok d
  | some list =>
    match listComplete list with
    | none => .error .raised
    | some s => (d.request s).map fun d =>
        { d with listSubmitted := Function.update d.listSubmitted list true, curList := none }

/-- `SH4_INTC_SR_BITS` are IMASK and BL. -/
def refreshIfChanged (oldSr newSr : UInt32) : Result :=
  if oldSr &&& 0x100000f0 ≠ newSr &&& 0x100000f0 then d.sh4RefreshIntcDeferred else .ok d

def sh4OnSrChange (oldSr newSr : UInt32) : Result := do
  let d ← d.refreshIfChanged oldSr newSr
  if newSr &&& 0x40000000 = 0 then .error .raised else .ok d

def access : Access → Result
  | .tmu a => (d.tmu.access a).map fun r => { d with tmu := r.2 }
  | .spgHblankInt val => (d.spg.setHblankInt d.stamp val).map d.setSpg
  | .spgVblankInt val => (d.spg.setVblankInt d.stamp val).map d.setSpg
  | .spgLoad val => (d.spg.setLoad d.stamp val).map d.setSpg
  | .spgControl val => .ok (d.setSpg (d.spg.setControl val))
  | .fbRCtrl val => (d.spg.setPclkDiv d.stamp (if val &&& 0x800000 ≠ 0 then 1 else 2)).map d.setSpg
  | .intcReg => d.sh4RefreshIntcDeferred
  | .dmatcr2 val => .ok { d with dmatcr2 := val }
  | .c2dstat val => .ok { d with c2dstat := val }
  | .c2dlen val => .ok { d with c2dlen := val }
  | .addir val => .ok { d with addir := val }
  | .pktHdr list => d.onPktHdrReceived list
  | .pktEndOfList => d.onPktEndOfListReceived
  | .taReinit => .ok d.pvr2TaReinit
  | .startRender => d.pvr2TaStartrender
  | .yuvFrame => d.pvr2YuvScheduleInt
  | .gdromRequest => d.gdromDelayedProcessing
  | .mapleFrame => d.mapleDmaComplete

/-! ## Transfers -/

/-- The polygon FIFO, the two areas of the texture memory and the YUV converter. -/
def ch2Destinations : List (UInt32 × UInt32) :=
  [(0x10000000, 0x107fffff), (0x11000000, 0x117fffff), (0x11800000, 0x11ffffff),
    (0x10800000, 0x10ffffff)]

def dcCh2DmaXfer (transfer : List Access) : Result :=
  if ch2Destinations.any fun r => r.1 ≤ d.c2dstat ∧ d.c2dstat ≤ r.2 then transfer.foldlM access d
  else .error .raised

/-- `sh4_dmac_channel2` up to the transfer. -/
def ch2Transfer (transfer : List Access) : Result :=
  if d.c2dlen ≠ 32 * d.dmatcr2 then .error .raised else d.dcCh2DmaXfer transfer

/-- `ch2_dma_scheduled` is set and cleared but never read. -/
def sh4DmacChannel2 (transfer : List Access) : Result := do
  let d ← d.ch2Transfer transfer
  ((d.shot .ch2Dma).sched (d.stamp + Shot.ch2Dma.delay)).map (d.setShot .ch2Dma)

def sbC2dstMmioWrite (val : UInt32) (transfer : List Access) : Result :=
  if val ≠ 0 then d.sh4DmacChannel2 transfer else .ok d

/-- `sb_adst_reg_mmio_write` up to the transfer. -/
def aicaTransfer (transfer : List Access) : Result :=
  if d.addir ≠ 0 then .error .raised else transfer.foldlM access d

/-- `sched_aica_dma_event` is cleared by the handler but neither set nor read. -/
def sbAdstRegMmioWrite (val : UInt32) (transfer : List Access) : Result :=
  if val ≠ 0 then do
    let d ← d.aicaTransfer transfer
    ((d.shot .aicaDma).event.sched (d.stamp + Shot.aicaDma.delay)).map fun event =>
      d.setShot .aicaDma { d.shot .aicaDma with event := event }
  else .ok d

/-! ## Handlers -/

/-- An interrupt is raised. If the processor enters it, BL changes in the status register. -/
def raiseInt (enters : Bool) : Result :=
  if enters then d.sh4RefreshIntcDeferred else .ok d

def tmuChanEventHandler (chan : Fin 3) (enters : Bool) : Result := do
  let c := d.tmu.chan chan
  let c ← { c with event := c.event.pop }.eventHandler (d.tmu.chanEnabled chan) d.stamp
  { d with tmu := d.tmu.setChan chan c }.raiseInt enters

def spgHandleHblank (enters : Bool) : Result := do
  let spg := { d.spg with hblankEvent := d.spg.hblankEvent.pop }.sync d.stamp
  let d ← (d.setSpg spg).raiseInt enters
  (d.spg.schedNextHblankEvent d.stamp).map d.setSpg

def spgHandleVblankIn (enters : Bool) : Result := do
  let spg := { d.spg with vblankInEvent := d.spg.vblankInEvent.pop }.sync d.stamp
  let d ← (d.setSpg spg).raiseInt enters
  (d.spg.schedNextVblankInEvent d.stamp).map d.setSpg

def spgHandleVblankOut (enters : Bool) : Result := do
  let spg := { d.spg with vblankOutEvent := d.spg.vblankOutEvent.pop }.sync d.stamp
  let d ← (d.setSpg spg).raiseInt enters
  (d.spg.schedNextVblankOutEvent d.stamp).map d.setSpg

def popShot (s : Shot) : Devices := d.setShot s (d.shot s).pop

def clearShot (s : Shot) : Devices := d.setShot s (d.shot s).clear

def shotHandler (s : Shot) (enters again : Bool) : Result :=
  match s with
  -- The flag is still set while an interrupt is entered here, so nothing is scheduled.
  | .refreshIntc | .aicaDma => ((d.popShot s).raiseInt enters).map (clearShot · s)
  | .ch2Dma => do
    let d ← (d.popShot s).raiseInt enters
    (d.clearShot s).raiseInt again
  | _ => ((d.popShot s).clearShot s).raiseInt enters

def inList : Event → Bool
  | .tmuChan chan => (d.tmu.chan chan).event.event.isSome
  | .hblank => d.spg.hblankEvent.event.isSome
  | .vblankIn => d.spg.vblankInEvent.event.isSome
  | .vblankOut => d.spg.vblankOutEvent.event.isSome
  | .shot s => (d.shot s).event.isSome

def fire (e : Event) (enters again : Bool) : Result :=
  if d.inList e then
    match e with
    | .tmuChan chan => d.tmuChanEventHandler chan enters
    | .hblank => d.spgHandleHblank enters
    | .vblankIn => d.spgHandleVblankIn enters
    | .vblankOut => d.spgHandleVblankOut enters
    | .shot s => d.shotHandler s enters again
  else .ok d

/-! ## Runs -/

def step : Op → Result
  | .advance cycles => .ok { d with tmu := { d.tmu with stamp := d.tmu.stamp + cycles } }
  | .access a => d.access a
  | .srChange oldSr newSr => d.sh4OnSrChange oldSr newSr
  | .c2dst val transfer => d.sbC2dstMmioWrite val transfer
  | .adst val transfer => d.sbAdstRegMmioWrite val transfer
  | .fire e enters again => d.fire e enters again

def init : Result :=
  (Spg.init 0).map fun spg =>
    ⟨Sh4.Tmu.reset, spg, fun _ => .idle, none, fun _ => false, 0, 0, 0, 0⟩

def run (ops : List Op) : Result := do
  let d ← init
  ops.foldlM step d

/-! ## The flags -/

/-- The flags of all events say whether they are in the list, but for the two DMA engines. -/
structure Honest : Prop where
  tmu : d.tmu.Honest
  spg : d.spg.Honest
  shot : ∀ s, s ≠ .ch2Dma → s ≠ .aicaDma → (d.shot s).Honest

section
variable {d}

theorem setShot_same (s : Shot) (f : Flagged) : (d.setShot s f).shot s = f := by
  simp [setShot]

variable {s : Shot}

theorem setShot_other {s' : Shot} (f : Flagged) (h : s' ≠ s) :
    (d.setShot s f).shot s' = d.shot s' := by
  simp [setShot, h]

theorem Honest.setShot {f : Flagged} (honest : d.Honest)
    (hf : s ≠ .ch2Dma → s ≠ .aicaDma → f.Honest) : (d.setShot s f).Honest := by
  refine ⟨honest.tmu, honest.spg, fun s' ch2 aica => ?_⟩
  by_cases h : s' = s
  · subst h
    rw [setShot_same]
    exact hf ch2 aica
  · rw [setShot_other f h]
    exact honest.shot s' ch2 aica

theorem Honest.setSpg {spg : Spg} (honest : d.Honest) (hspg : spg.Honest) :
    (d.setSpg spg).Honest :=
  ⟨honest.tmu, hspg, honest.shot⟩

/-! ### Requests -/

theorem request_sound (honest : (d.shot s).Honest) :
    Sound (d.request s) fun d' => ∃ f, d' = d.setShot s f ∧ f.Honest :=
  honest.schedOnce.map fun f hf => ⟨f, rfl, hf⟩

theorem Honest.request (honest : d.Honest) (ch2 : s ≠ .ch2Dma) (aica : s ≠ .aicaDma) :
    Sound (d.request s) Honest := by
  refine (request_sound (honest.shot s ch2 aica)).imp ?_
  rintro _ ⟨f, rfl, hf⟩
  exact honest.setShot fun _ _ => hf

variable {enters : Bool}

theorem raiseInt_sound (honest : (d.shot .refreshIntc).Honest) :
    Sound (d.raiseInt enters) fun d' => ∃ f, d' = d.setShot .refreshIntc f ∧ f.Honest := by
  unfold raiseInt
  split
  · exact request_sound honest
  · refine ⟨d.shot .refreshIntc, ?_, honest⟩
    rw [Devices.setShot, Function.update_eq_self]

theorem Honest.raiseInt (honest : d.Honest) : Sound (d.raiseInt enters) Honest := by
  refine (raiseInt_sound (honest.shot .refreshIntc nofun nofun)).imp ?_
  rintro _ ⟨f, rfl, hf⟩
  exact honest.setShot fun _ _ => hf

theorem Honest.sh4OnSrChange {oldSr newSr : UInt32} (honest : d.Honest) :
    Sound (d.sh4OnSrChange oldSr newSr) Honest := by
  have refreshed : Sound (d.refreshIfChanged oldSr newSr) Honest := by
    unfold refreshIfChanged
    split
    · exact honest.request nofun nofun
    · exact honest
  refine refreshed.bind fun d' honest' => ?_
  split
  · rfl
  · exact honest'

variable {list : DisplayList} {start : Devices → Result} {x : Result}

theorem Honest.onPktHdrReceived (honest : d.Honest) : Sound (d.onPktHdrReceived list) Honest := by
  unfold Devices.onPktHdrReceived
  split
  · exact honest
  · dsimp only
    split
    · rfl
    · exact ⟨honest.tmu, honest.spg, honest.shot⟩

theorem listComplete_not_dma (h : listComplete list = some s) : s ≠ .ch2Dma ∧ s ≠ .aicaDma := by
  cases list <;> cases h <;> exact ⟨nofun, nofun⟩

section
variable (honest : d.Honest)
include honest

theorem Honest.onPktEndOfListReceived : Sound d.onPktEndOfListReceived Honest := by
  unfold Devices.onPktEndOfListReceived
  split
  · exact honest
  · split
    · rfl
    · rename_i s hs
      obtain ⟨ch2, aica⟩ := listComplete_not_dma hs
      exact (honest.request ch2 aica).map fun d' honest' =>
        ⟨honest'.tmu, honest'.spg, honest'.shot⟩

theorem Honest.access (a : Access) : Sound (d.access a) Honest := by
  cases a with
  | tmu a =>
    exact (Sh4.Tmu.access_sound honest.tmu a).map fun r hr => ⟨hr, honest.spg, honest.shot⟩
  | spgHblankInt val => exact honest.spg.setHblankInt.map fun spg h => honest.setSpg h
  | spgVblankInt val => exact honest.spg.setVblankInt.map fun spg h => honest.setSpg h
  | spgLoad val => exact honest.spg.setLoad.map fun spg h => honest.setSpg h
  | spgControl val => exact honest.setSpg ⟨honest.spg.hblank, honest.spg.vblankIn, honest.spg.vblankOut⟩
  | fbRCtrl val => exact honest.spg.setPclkDiv.map fun spg h => honest.setSpg h
  | intcReg | yuvFrame | gdromRequest | mapleFrame => exact honest.request nofun nofun
  | dmatcr2 val | c2dstat val | c2dlen val | addir val | taReinit =>
    exact ⟨honest.tmu, honest.spg, honest.shot⟩
  | pktHdr list => exact honest.onPktHdrReceived
  | pktEndOfList => exact honest.onPktEndOfListReceived
  | startRender => exact Honest.request ⟨honest.tmu, honest.spg, honest.shot⟩ nofun nofun

theorem Honest.accesses (as : List Access) : Sound (as.foldlM Devices.access d) Honest := by
  induction as generalizing d with
  | nil => exact honest
  | cons a as ih =>
    rw [List.foldlM_cons]
    exact (honest.access a).bind fun d' honest' => ih honest'

/-! ### Transfers -/

theorem Honest.ch2Transfer {transfer : List Access} : Sound (d.ch2Transfer transfer) Honest := by
  unfold Devices.ch2Transfer dcCh2DmaXfer
  split
  · rfl
  · split
    · exact honest.accesses transfer
    · rfl

theorem Honest.aicaTransfer {transfer : List Access} : Sound (d.aicaTransfer transfer) Honest := by
  unfold Devices.aicaTransfer
  split
  · rfl
  · exact honest.accesses transfer

/-! ### Handlers -/

theorem Honest.tmuChanEventHandler {chan : Fin 3} :
    Sound (d.tmuChanEventHandler chan enters) Honest := by
  refine (Sh4.Tmu.Chan.eventHandler_sound rfl).bind fun c hc => ?_
  exact Honest.raiseInt ⟨Sh4.Tmu.setChan_honest honest.tmu hc, honest.spg, honest.shot⟩

theorem Honest.spgHandle {spg : Spg} {schedNext : Spg → Nat → Except Fault Spg}
    (next : Sound (schedNext spg d.stamp) Spg.Honest) :
    Sound ((d.setSpg spg).raiseInt enters >>= fun d => (schedNext d.spg d.stamp).map d.setSpg)
      Honest := by
  refine (raiseInt_sound (d := d.setSpg spg) (honest.shot .refreshIntc nofun nofun)).bind ?_
  rintro _ ⟨f, rfl, hf⟩
  exact next.map fun spg' hspg' => (honest.setShot fun _ _ => hf).setSpg hspg'

theorem Honest.spgHandleHblank : Sound (d.spgHandleHblank enters) Honest := by
  obtain ⟨absent, hin, hout⟩ := Spg.sync_events
    { d.spg with hblankEvent := d.spg.hblankEvent.pop } d.stamp
  refine honest.spgHandle ?_
  refine (Spg.schedNextHblankEvent_sound _ _ (by rw [absent]; rfl)).imp ?_
  rintro _ ⟨event, rfl, hevent⟩
  exact ⟨hevent, hin ▸ honest.spg.vblankIn, hout ▸ honest.spg.vblankOut⟩

theorem Honest.spgHandleVblankIn : Sound (d.spgHandleVblankIn enters) Honest := by
  obtain ⟨hblank, absent, hout⟩ := Spg.sync_events
    { d.spg with vblankInEvent := d.spg.vblankInEvent.pop } d.stamp
  refine honest.spgHandle ?_
  refine (Spg.schedNextVblankInEvent_sound _ _ (by rw [absent]; rfl)).imp ?_
  rintro _ ⟨event, rfl, hevent⟩
  exact ⟨hblank ▸ honest.spg.hblank, hevent, hout ▸ honest.spg.vblankOut⟩

theorem Honest.spgHandleVblankOut : Sound (d.spgHandleVblankOut enters) Honest := by
  obtain ⟨hblank, hin, absent⟩ := Spg.sync_events
    { d.spg with vblankOutEvent := d.spg.vblankOutEvent.pop } d.stamp
  refine honest.spgHandle ?_
  refine (Spg.schedNextVblankOutEvent_sound _ _ (by rw [absent]; rfl)).imp ?_
  rintro _ ⟨event, rfl, hevent⟩
  exact ⟨hblank ▸ honest.spg.hblank, hin ▸ honest.spg.vblankIn, hevent⟩

theorem Honest.popClear : ((d.popShot s).clearShot s).Honest := by
  have same : (d.popShot s).clearShot s = d.setShot s ⟨false, none⟩ := by
    simp [Devices.popShot, Devices.clearShot, Devices.setShot, Flagged.pop, Flagged.clear]
  rw [same]
  exact honest.setShot fun _ _ => rfl

end

variable {again : Bool}

theorem Honest.refreshHandler (honest : d.Honest)
    (inList : (d.shot .refreshIntc).event.isSome = true) :
    Sound (d.shotHandler .refreshIntc enters again) Honest := by
  have flag : ((d.popShot .refreshIntc).shot .refreshIntc).scheduled = true := by
    rw [popShot, setShot_same]
    exact (honest.shot .refreshIntc nofun nofun).trans inList
  have kept : (d.popShot .refreshIntc).raiseInt enters = .ok (d.popShot .refreshIntc) := by
    unfold Devices.raiseInt Devices.sh4RefreshIntcDeferred Devices.request Flagged.schedOnce
    rw [flag]
    cases enters
    · rfl
    · simp [Except.map, Devices.setShot]
  unfold shotHandler
  rw [kept]
  exact honest.popClear

theorem Honest.shotHandler (honest : d.Honest) (inList : (d.shot s).event.isSome = true) :
    Sound (d.shotHandler s enters again) Honest := by
  cases s with
  | refreshIntc => exact honest.refreshHandler inList
  | ch2Dma =>
    have popped : (d.popShot .ch2Dma).Honest := honest.setShot fun h _ => absurd rfl h
    refine popped.raiseInt.bind fun d' honest' => ?_
    exact Honest.raiseInt (honest'.setShot fun h _ => absurd rfl h)
  | aicaDma =>
    have popped : (d.popShot .aicaDma).Honest := honest.setShot fun _ h => absurd rfl h
    exact popped.raiseInt.map fun d' honest' => honest'.setShot fun _ h => absurd rfl h
  | opComplete | opModComplete | transComplete | transModComplete | ptComplete | renderComplete
  | yuvComplete | gdromInt | mapleDma => exact honest.popClear.raiseInt

theorem Honest.fire {e : Event} (honest : d.Honest) : Sound (d.fire e enters again) Honest := by
  unfold Devices.fire
  split
  · rename_i inList
    cases e with
    | tmuChan chan => exact honest.tmuChanEventHandler
    | hblank => exact honest.spgHandleHblank
    | vblankIn => exact honest.spgHandleVblankIn
    | vblankOut => exact honest.spgHandleVblankOut
    | shot s => exact honest.shotHandler inList
  · exact honest

/-! ### The start of a transfer -/

/-- The transfer `x` leads to a state in which the event `s` is in the list. -/
def queuedAfter (x : Result) (s : Shot) : Bool :=
  x.toOption.any fun d => (d.shot s).event.isSome

theorem start_sound (sound : Sound x Honest) (fresh : ¬queuedAfter x s = true)
    (absent : ∀ d : Devices, d.Honest → (d.shot s).event = none → Sound (start d) Honest) :
    Sound (x >>= start) Honest := by
  cases x with
  | error f => exact sound
  | ok d =>
    refine absent d sound ?_
    simpa [queuedAfter, Except.toOption] using fresh

theorem start_misused (queued : queuedAfter x s = true)
    (present : ∀ d : Devices, (d.shot s).event.isSome = true → start d = .error .scheduledTwice) :
    Misused (x >>= start) := by
  cases x with
  | error f => cases queued
  | ok d => exact ⟨.scheduledTwice, present d queued, rfl⟩

/-! ## All runs -/

end

/-- A DMA engine is started while the event of its last transfer is still in the list. -/
def restarts : Op → Bool
  | .c2dst val transfer => val != 0 && queuedAfter (d.ch2Transfer transfer) .ch2Dma
  | .adst val transfer => val != 0 && queuedAfter (d.aicaTransfer transfer) .aicaDma
  | _ => false

section
variable {d}

variable {transfer : List Access} {val : UInt32}

theorem Honest.sbC2dstMmioWrite (honest : d.Honest)
    (fresh : ¬d.restarts (.c2dst val transfer) = true) :
    Sound (d.sbC2dstMmioWrite val transfer) Honest := by
  unfold Devices.sbC2dstMmioWrite
  split
  · rename_i started
    refine start_sound honest.ch2Transfer (by simpa [restarts, started] using fresh) ?_
    intro d' honest' absent
    exact (Flagged.sched_sound absent).map fun f hf => honest'.setShot fun _ _ => hf
  · exact honest

theorem Honest.sbAdstRegMmioWrite (honest : d.Honest)
    (fresh : ¬d.restarts (.adst val transfer) = true) :
    Sound (d.sbAdstRegMmioWrite val transfer) Honest := by
  unfold Devices.sbAdstRegMmioWrite
  split
  · rename_i started
    refine start_sound honest.aicaTransfer (by simpa [restarts, started] using fresh) ?_
    intro d' honest' absent
    rw [absent]
    exact honest'.setShot fun _ h => absurd rfl h
  · exact honest

theorem Honest.step {op : Op} (honest : d.Honest) (fresh : ¬d.restarts op = true) :
    Sound (d.step op) Honest := by
  cases op with
  | advance cycles => exact ⟨honest.tmu, honest.spg, honest.shot⟩
  | access a => exact honest.access a
  | srChange oldSr newSr => exact honest.sh4OnSrChange
  | c2dst val transfer => exact honest.sbC2dstMmioWrite fresh
  | adst val transfer => exact honest.sbAdstRegMmioWrite fresh
  | fire e enters again => exact honest.fire

theorem restart_misused {op : Op} (h : d.restarts op = true) : Misused (d.step op) := by
  cases op with
  | c2dst val transfer =>
    obtain ⟨started, queued⟩ := (Bool.and_eq_true _ _).mp h
    change Misused (if val ≠ 0 then d.sh4DmacChannel2 transfer else .ok d)
    rw [if_pos (by simpa using started)]
    refine start_misused queued fun d' present => ?_
    rw [Flagged.sched_of_present present]
    rfl
  | adst val transfer =>
    obtain ⟨started, queued⟩ := (Bool.and_eq_true _ _).mp h
    change Misused (d.sbAdstRegMmioWrite val transfer)
    unfold sbAdstRegMmioWrite
    rw [if_pos (by simpa using started)]
    refine start_misused queued fun d' present => ?_
    rw [Slot.sched, if_pos present]
    rfl
  | _ => cases h

theorem init_honest : ∃ d : Devices, init = .ok d ∧ d.Honest := by
  have sound : Sound init Honest := by
    refine (Spg.schedAll_sound _ 0 rfl rfl rfl).map fun spg hspg => ?_
    refine ⟨?_, hspg, fun _ _ _ => rfl⟩
    rintro ⟨_ | _ | _ | n, hn⟩
    · rfl
    · rfl
    · rfl
    · omega
  cases h : init with
  | error f =>
    exfalso
    have : init.isOk = true := by decide +kernel
    rw [h] at this
    cases this
  | ok d =>
    rw [h] at sound
    exact ⟨d, rfl, sound⟩

end

/-- A run schedules an event that is in the list, or cancels one that is not, exactly if it starts
a DMA engine while the event of its last transfer is still in the list. -/
theorem events_misused_iff (ops : List Op) :
    Misused (run ops) ↔
      ∃ before op after d, ops = before ++ op :: after ∧ run before = .ok d ∧
        d.restarts op = true := by
  obtain ⟨d, hinit, honest⟩ := init_honest
  unfold run
  rw [hinit]
  exact misused_foldlM Honest (fun _ _ h fresh => h.step fresh)
    (fun _ _ _ again => restart_misused again) ops d honest

/-- Two transfers of 32 bytes to the texture memory, the second of which is started before the
event of the first has fired. -/
theorem second_transfer_misused :
    Misused (run
      [.access (.dmatcr2 1), .access (.c2dstat 0x11000000), .access (.c2dlen 32),
        .c2dst 1 [], .c2dst 1 []]) :=
  ⟨.scheduledTwice, by rfl, rfl⟩

end Devices

end DeviceEvents

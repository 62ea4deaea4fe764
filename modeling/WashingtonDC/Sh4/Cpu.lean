import Mathlib.Data.UInt

/-!
# The SH4 and its interrupt controller

`struct Sh4` as far as exceptions, interrupts, register banks and delayed branches need it, with
the functions of `sh4.c`, `sh4_excp.c` and the inline functions of `sh4_read_inst.h`. An error
raised by the emulator is `none`. Memory and the devices are a parameter `ω`. Of the clock only
the event `sh4_refresh_intc_event` is kept: whether it is in the event list and whether its
handler is running. The host's rounding mode, the operand cache and `aborted_operation`, which
nothing sets, are left out.
-/
namespace Sh4

/-! ## Registers -/

abbrev regR15 : Nat := 15
abbrev regR0Bank : Nat := 16
abbrev regFr0 : Nat := 24
abbrev regXf0 : Nat := 40
abbrev regFpscr : Nat := 56
abbrev regSr : Nat := 58
abbrev regSsr : Nat := 59
abbrev regSpc : Nat := 60
abbrev regVbr : Nat := 62
abbrev regSgr : Nat := 63
abbrev regPr : Nat := 67
abbrev regPc : Nat := 68
abbrev regExpevt : Nat := 79
abbrev regIntevt : Nat := 80
abbrev regIcr : Nat := 106
abbrev regIpra : Nat := 107
abbrev regStbcr : Nat := 122

abbrev srTMask : UInt32 := 0x1
abbrev srImaskMask : UInt32 := 0xf0
abbrev srFdMask : UInt32 := 0x8000
abbrev srBlMask : UInt32 := 0x10000000
abbrev srRbMask : UInt32 := 0x20000000
abbrev srMdMask : UInt32 := 0x40000000
abbrev intcSrBits : UInt32 := 0x100000f0
abbrev fpscrSzMask : UInt32 := 0x100000
abbrev fpscrFrMask : UInt32 := 0x200000
abbrev icrIrlmMask : UInt32 := 0x80
abbrev stbcrStbyMask : UInt32 := 0x80

/-! ## Exceptions -/

abbrev excpManualReset : UInt32 := 0x020
abbrev excpInstTlbMultHit : UInt32 := 0x140
abbrev excpGenIllegalInst : UInt32 := 0x180
abbrev excpSlotIllegalInst : UInt32 := 0x1a0

/-- `sh4_excp_meta`: the codes and the offsets of their vectors. The priorities in the table are
never read. -/
def excpMeta : List (UInt32 × UInt32) :=
  [(0x000, 0), (0x020, 0), (0x000, 0), (0x140, 0), (0x140, 0), (0x1e0, 0x100), (0x0e0, 0x100),
   (0x040, 0x400), (0x0a0, 0x100), (0x180, 0x100), (0x1a0, 0x100), (0x800, 0x100),
   (0x820, 0x100), (0x0e0, 0x100), (0x100, 0x100), (0x040, 0x400), (0x060, 0x400),
   (0x0a0, 0x100), (0x0c0, 0x100), (0x120, 0x100), (0x080, 0x100), (0x160, 0x100),
   (0x1e0, 0x100), (0x1c0, 0x600), (0x200, 0x600), (0x220, 0x600), (0x240, 0x600),
   (0x260, 0x600), (0x280, 0x600), (0x2a0, 0x600), (0x2c0, 0x600), (0x2e0, 0x600),
   (0x300, 0x600), (0x320, 0x600), (0x340, 0x600), (0x360, 0x600), (0x380, 0x600),
   (0x3a0, 0x600), (0x3c0, 0x600), (0x400, 0x600), (0x420, 0x600), (0x440, 0x600),
   (0x460, 0x600), (0x480, 0x600), (0x4a0, 0x600), (0x4c0, 0x600), (0x4e0, 0x600),
   (0x500, 0x600), (0x520, 0x600), (0x540, 0x600), (0x560, 0x600), (0x580, 0x600),
   (0x5a0, 0x600), (0x620, 0x600), (0x640, 0x600), (0x660, 0x600), (0x680, 0x600),
   (0x6a0, 0x600), (0x6c0, 0x600), (0x700, 0x600), (0x720, 0x600), (0x740, 0x600),
   (0x760, 0x600)]

/-- Where a handler starts: resets and TLB multiple hits have a fixed address. -/
def vectorAddr (vbr offset code : UInt32) : UInt32 :=
  if code = 0 ∨ code = excpManualReset ∨ code = excpInstTlbMultHit then 0xa0000000
  else vbr + offset

/-- The lines of the interrupt controller, `SH4_IRQ_…`. -/
abbrev irqGpio : Nat := 11
abbrev irqIrl3 : Nat := 12
abbrev irqIrl2 : Nat := 13
abbrev irqIrl1 : Nat := 14
abbrev irqIrl0 : Nat := 15

/-! ## Interrupt sources -/

structure IrqMeta where
  isIrl : Bool
  code : UInt32
  line : Nat
deriving DecidableEq

/-- `irqLines` holds for each line the code of its interrupt, zero if it is not asserted. -/
structure Intc where
  irqLines : Nat → UInt32
  isIrqPending : Bool
  pendingIrq : IrqMeta

/-! ## Choosing an interrupt -/

section
variable (reg : Nat → UInt32)

/-- `SR.BL`. -/
def isBlocked : Bool := reg regSr &&& srBlMask != 0

def imask : Nat := ((reg regSr &&& srImaskMask) >>> 4).toNat

def irqPrio (line : Nat) : Nat :=
  ((reg (regIpra + line / 4) >>> UInt32.ofNat (4 * (line % 4))) &&& 0xf).toNat

/-- The four IRL lines are a bus unless `ICR.IRLM` is set. -/
def irlBus : Bool := reg regIcr &&& icrIrlmMask == 0

def lastLine : Nat := if irlBus reg then irqGpio else irqIrl0

/-- The `switch` over the value of the bus gives `0` the priority 15 and `SH4_EXCP_EXT_0`, and so
on down to `0xe`. -/
def irlPrio (val : Nat) : Nat := 15 - val

def irlCode (val : Nat) : UInt32 := 0x200 + 0x20 * UInt32.ofNat val

end

namespace Intc

variable (intc : Intc) (reg : Nat → UInt32)

def betterLine (best : Option (Nat × Nat)) (line : Nat) : Option (Nat × Nat) :=
  if imask reg < irqPrio reg line ∧ intc.irqLines line ≠ 0 ∧
      best.all (·.1 < irqPrio reg line) then
    some (irqPrio reg line, line)
  else best

def bestLine : Option (Nat × Nat) :=
  (List.range (lastLine reg + 1)).foldl (intc.betterLine reg) none

def irlVal : Nat :=
  15 - ((if intc.irqLines irqIrl0 ≠ 0 then 1 else 0) +
    (if intc.irqLines irqIrl1 ≠ 0 then 2 else 0) + (if intc.irqLines irqIrl2 ≠ 0 then 4 else 0) +
    (if intc.irqLines irqIrl3 ≠ 0 then 8 else 0))

/-- The interrupt of the highest priority. The line is not set for the bus. -/
def getNextIrqLine : Option IrqMeta :=
  if isBlocked reg then none
  else if irlBus reg ∧ intc.irlVal ≠ 15 ∧ (intc.bestLine reg).all (·.1 < irlPrio intc.irlVal) ∧
      imask reg < irlPrio intc.irlVal then
    some { intc.pendingIrq with isIrl := true, code := irlCode intc.irlVal }
  else (intc.bestLine reg).map fun best => ⟨false, intc.irqLines best.2, best.2⟩

end Intc

/-! ## The processor -/

inductive ExecState
  | norm | sleep | standby
deriving DecidableEq

/-- The state in which an exception or an interrupt was entered; `irq` is the interrupt source. -/
structure Entry where
  code : UInt32
  irq : Option IrqMeta
  reg : Nat → UInt32
  intc : Intc

/-- The refresh flag is `sh4_refresh_intc_event_scheduled`; `refreshQueued` says whether the event
is in the event list of the clock, `refreshRunning` whether its handler has been called and has
not returned. `entered` is a history of the entries so far that the source does not keep. -/
structure Cpu (ω : Type) where
  reg : Nat → UInt32
  delayedBranch : Bool
  delayedBranchAddr : UInt32
  execState : ExecState
  intc : Intc
  refreshScheduled : Bool
  refreshQueued : Bool
  refreshRunning : Bool
  world : ω
  entered : List Entry

variable {ω : Type}

namespace Cpu

variable (c : Cpu ω)

def write (i : Nat) (v : UInt32) : Cpu ω := { c with reg := Function.update c.reg i v }

def sr : UInt32 := c.reg regSr

def fpscr : UInt32 := c.reg regFpscr

def pc : UInt32 := c.reg regPc

/-! ## Register banks -/

def bankSwitch : Cpu ω :=
  { c with reg := fun i =>
      if i < 8 then c.reg (i + 16) else if 16 ≤ i ∧ i < 24 then c.reg (i - 16) else c.reg i }

def bankSwitchMaybe (oldSr newSr : UInt32) : Cpu ω :=
  if oldSr &&& srRbMask ≠ newSr &&& srRbMask then c.bankSwitch else c

def fpuBankSwitch : Cpu ω :=
  { c with reg := fun i =>
      if 24 ≤ i ∧ i < 40 then c.reg (i + 16) else if 40 ≤ i ∧ i < 56 then c.reg (i - 16)
      else c.reg i }

def fpuBankSwitchMaybe (oldFpscr newFpscr : UInt32) : Cpu ω :=
  if oldFpscr &&& fpscrFrMask ≠ newFpscr &&& fpscrFrMask then c.fpuBankSwitch else c

def setFpscr (newVal : UInt32) : Cpu ω :=
  (c.fpuBankSwitchMaybe c.fpscr newVal).write regFpscr newVal

/-! ## Changes of the status register -/

/-- `sched_event` for the refresh event: an event must not be scheduled twice. -/
def schedRefresh : Option (Cpu ω) :=
  if c.refreshQueued then none else some { c with refreshQueued := true }

def refreshIntcDeferred : Option (Cpu ω) :=
  if !c.refreshScheduled then { c with refreshScheduled := true }.schedRefresh else some c

/-- A refresh is scheduled if the bits that the interrupt controller depends on differ. -/
def refreshIfChanged (oldSr newSr : UInt32) : Option (Cpu ω) :=
  if oldSr &&& intcSrBits ≠ newSr &&& intcSrBits then c.refreshIntcDeferred else some c

def onSrChange (oldSr : UInt32) : Option (Cpu ω) :=
  ((c.bankSwitchMaybe oldSr c.sr).refreshIfChanged oldSr c.sr).bind fun c' =>
    if c.sr &&& srMdMask = 0 then none else some c'

/-- Every write to the whole status register is followed by `sh4_on_sr_change`. -/
def setSr (newSr : UInt32) : Option (Cpu ω) := (c.write regSr newSr).onSrChange c.sr

def setIndividualReg (regNo : Nat) (val : UInt32) : Option (Cpu ω) :=
  if regNo = regFpscr then some (c.setFpscr val)
  else if regNo = regSr then c.setSr val
  else some (c.write regNo val)

/-! ## Entering exceptions -/

def saved : Cpu ω := ((c.write regSpc c.pc).write regSsr c.sr).write regSgr (c.reg regR15)

def handlerSr (sr : UInt32) : UInt32 := (sr ||| (srBlMask ||| srMdMask ||| srRbMask)) &&& ~~~srFdMask

def enterException (code : UInt32) : Option (Cpu ω) := do
  let (_, offset) ← excpMeta.find? (·.1 = code)
  let c1 ← c.saved.setSr (handlerSr c.sr)
  some (c1.write regPc (vectorAddr (c1.reg regVbr) offset code))

def record (code : UInt32) (irq : Option IrqMeta) : Cpu ω :=
  { c with entered := ⟨code, irq, c.reg, c.intc⟩ :: c.entered }

def setException (code : UInt32) : Option (Cpu ω) :=
  ((c.record code none).write regExpevt (code &&& 0xfff)).enterException code

/-! ## Entering interrupts -/

def setLine (line : Nat) (code : UInt32) : Cpu ω :=
  { c with intc.irqLines := Function.update c.intc.irqLines line code }

/-- The part of `sh4_set_irl_interrupt` before the refresh: the value is active low. -/
def setIrlLines (val : UInt32) : Cpu ω :=
  let asserted (bit code : UInt32) : UInt32 := if ~~~val &&& bit ≠ 0 then code else 0
  (((c.setLine irqIrl0 (asserted 1 0x240)).setLine irqIrl1 (asserted 2 0x2a0)).setLine irqIrl2
    (asserted 4 0x300)).setLine irqIrl3 (asserted 8 0x360)

def pend (irq : IrqMeta) : Cpu ω :=
  { c with intc := { c.intc with isIrqPending := true, pendingIrq := irq } }

/-- The part of `sh4_refresh_intc` before the interrupts are checked. -/
def updatePending : Cpu ω :=
  match c.intc.getNextIrqLine c.reg with
  | none => { c with intc.isIrqPending := false }
  | some irq => c.pend irq

def acknowledge (irq : IrqMeta) : Cpu ω :=
  if irq.isIrl then c.setIrlLines 0xf else c.setLine irq.line 0

/-- The part of `sh4_enter_irq_from_meta` before the lines are changed. -/
def enterPendingIrq : Option (Cpu ω) :=
  ((c.record c.intc.pendingIrq.code (some c.intc.pendingIrq)).write regIntevt
    (c.intc.pendingIrq.code &&& 0xfff)).enterException c.intc.pendingIrq.code

section
variable (refresh : Cpu ω → Option (Cpu ω))

def enterIrqFromMeta : Option (Cpu ω) := do
  let c1 ← c.enterPendingIrq
  let c2 ← refresh (c1.acknowledge c.intc.pendingIrq)
  some { c2 with execState := .norm }

def checkInterruptsNoDelayBranchCheck : Option (Cpu ω) :=
  if c.intc.isIrqPending then
    (c.enterIrqFromMeta refresh).map fun c => { c with intc.isIrqPending := false }
  else some c

def checkInterrupts : Option (Cpu ω) :=
  if !c.delayedBranch then c.checkInterruptsNoDelayBranchCheck refresh else some c

end

/-- `sh4_refresh_intc` enters a pending interrupt, which refreshes again. `fuel` bounds the
nesting. -/
def refreshIntcFuel : Nat → Cpu ω → Option (Cpu ω)
  | 0, _ => none
  | fuel + 1, c => c.updatePending.checkInterrupts (refreshIntcFuel fuel)

def refreshIntc : Option (Cpu ω) := refreshIntcFuel 2 c

def setInterrupt (line : Nat) (code : UInt32) : Option (Cpu ω) := (c.setLine line code).refreshIntc

def setIrlInterrupt (val : UInt32) : Option (Cpu ω) := (c.setIrlLines val).refreshIntc

/-- The handler of the refresh event, called after the event was taken from the list. -/
def doRefreshIntcDeferred : Option (Cpu ω) :=
  (c.refreshIntc).map fun c => { c with refreshScheduled := false }

/-- The write handlers of the registers that the choice depends on. -/
def intcRegWriteHandler (i : Nat) (val : UInt32) : Option (Cpu ω) :=
  (c.write i val).refreshIntcDeferred

def excpIcrRegWriteHandler (val : UInt32) : Option (Cpu ω) := c.intcRegWriteHandler regIcr val
def excpIpraRegWriteHandler (val : UInt32) : Option (Cpu ω) := c.intcRegWriteHandler regIpra val
def excpIprbRegWriteHandler (val : UInt32) : Option (Cpu ω) :=
  c.intcRegWriteHandler (regIpra + 1) val
def excpIprcRegWriteHandler (val : UInt32) : Option (Cpu ω) :=
  c.intcRegWriteHandler (regIpra + 2) val
def excpIprdRegWriteHandler (val : UInt32) : Option (Cpu ω) :=
  c.intcRegWriteHandler (regIpra + 3) val

end Cpu

end Sh4

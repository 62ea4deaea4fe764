import WashingtonDC.Sh4.Cpu
import WashingtonDC.Sh4.Opcodes
import WashingtonDC.Lockstep

/-!
# The SH4 interpreter

`sh4_do_exec_inst` and the instruction functions that touch the control state: branches, RTE,
SLEEP, the writes to the whole status register and to FPSCR, and the unrecognised opcode. All
other instruction functions are a parameter. What they can do to the registers of this model is
the type `Effect`: they write other registers, the flags of the status register, the bits of
FPSCR other than FR, and through memory they reach the registers of the interrupt controller and
devices that drive the IRL lines at once (a write to `AICA_MCIPD` does). Functions of the FPU that
are not defined for the value of `FPSCR.PR` call `sh4_inst_invalid`.
-/
namespace Sh4

variable {ω : Type}

abbrev srSystemBits : UInt32 := 0x700080f0

/-- The registers that are not written directly by other instruction functions. -/
def isControlReg (i : Nat) : Bool :=
  i == regSr || i == regFpscr || i == regPc || regIcr ≤ i && i ≤ regIpra + 3

/-- What an instruction function other than those below does to the processor, step by step. -/
inductive Effect
  | write (i : Nat) (plain : isControlReg i = false) (val : UInt32)
  | setFlags (val : UInt32)
  | setFpscrBits (val : UInt32)
  | icr (val : UInt32)
  | ipr (n : Fin 4) (val : UInt32)
  | irl (val : UInt32)
  | invalid

/-- The bits of `val` under `mask` and those of `old` elsewhere. -/
def merge (mask old val : UInt32) : UInt32 := (old &&& ~~~mask) ||| (val &&& mask)

namespace Cpu

variable (c : Cpu ω)

def iprRegWriteHandler (n : Fin 4) : UInt32 → Option (Cpu ω) :=
  match n with
  | 0 => c.excpIpraRegWriteHandler
  | 1 => c.excpIprbRegWriteHandler
  | 2 => c.excpIprcRegWriteHandler
  | 3 => c.excpIprdRegWriteHandler

def instInvalid : Option (Cpu ω) := c.setException excpGenIllegalInst

def apply : Effect → Option (Cpu ω)
  | .write i _ val => some (c.write i val)
  | .setFlags val => some (c.write regSr (merge (~~~srSystemBits) c.sr val))
  | .setFpscrBits val => some (c.write regFpscr (merge (~~~fpscrFrMask) c.fpscr val))
  | .icr val => c.excpIcrRegWriteHandler val
  | .ipr n val => c.iprRegWriteHandler n val
  | .irl val => c.setIrlInterrupt val
  | .invalid => c.instInvalid

end Cpu

/-- What a read of memory can do: it reaches the registers of the on-chip modules, which come
after the general, the floating point and the control registers, and devices. -/
def Effect.viaMemory : Effect → Bool
  | .write i _ _ => decide (69 ≤ i)
  | .setFlags _ | .setFpscrBits _ | .invalid => false
  | .icr _ | .ipr _ _ | .irl _ => true

def rm (inst : UInt16) : Nat := ((inst >>> 4) &&& 0xf).toNat

/-- What the instruction functions that are not modelled, and reads of memory, do. -/
structure Env (ω : Type) where
  plain : OpFunc → UInt16 → Cpu ω → Option (List Effect × ω)
  read32 : UInt32 → Cpu ω → Option (UInt32 × List Effect × ω)
  read32_viaMemory : ∀ {addr c val effects world},
    read32 addr c = some (val, effects, world) → effects.all Effect.viaMemory = true
  debugger : Bool

namespace Cpu

variable (env : Env ω) (inst : UInt16) (c : Cpu ω)

def applyAll (effects : List Effect) : Option (Cpu ω) := effects.foldlM apply c

/-! ## Operands -/

def rn : Nat := ((inst >>> 8) &&& 0xf).toNat

/-- `inst_simm8` and `inst_simm12`, doubled and sign-extended. -/
def disp8 : UInt32 :=
  let imm := (inst &&& 0xff).toUInt32
  (if imm &&& 0x80 ≠ 0 then imm ||| 0xffffff00 else imm) <<< 1

def disp12 : UInt32 :=
  let imm := (inst &&& 0xfff).toUInt32
  (if imm &&& 0x800 ≠ 0 then imm ||| 0xfffff000 else imm) <<< 1

def tFlag : Bool := c.sr &&& srTMask != 0

/-! ## Branches -/

def branchTo (addr : UInt32) : Cpu ω := { c with delayedBranch := true, delayedBranchAddr := addr }

def savePr : Cpu ω := c.write regPr (c.pc + 4)

def instRts : Cpu ω := c.branchTo (c.reg regPr)

def instRte : Option (Cpu ω) := (c.branchTo (c.reg regSpc)).setSr (c.reg regSsr)

def instUnaryBrafGen : Cpu ω := c.branchTo (c.pc + c.reg (rn inst) + 4)

def instUnaryBsrfGen : Cpu ω := c.savePr.branchTo (c.pc + c.reg (rn inst) + 4)

def instUnaryBfDisp : Cpu ω :=
  if !c.tFlag then c.write regPc (c.pc + (disp8 inst + (4 - 2))) else c

def instUnaryBfsDisp : Cpu ω := if !c.tFlag then c.branchTo (c.pc + disp8 inst + 4) else c

def instUnaryBtDisp : Cpu ω :=
  if c.tFlag then c.write regPc (c.pc + (disp8 inst + (4 - 2))) else c

def instUnaryBtsDisp : Cpu ω := if c.tFlag then c.branchTo (c.pc + disp8 inst + 4) else c

def instUnaryBraDisp : Cpu ω := c.branchTo (c.pc + disp12 inst + 4)

def instUnaryBsrDisp : Cpu ω := c.savePr.branchTo (c.pc + disp12 inst + 4)

def instUnaryJmpIndgen : Cpu ω := c.branchTo (c.reg (rn inst))

def instUnaryJsrIndgen : Cpu ω := c.savePr.branchTo (c.reg (rn inst))

/-! ## Other control instructions -/

def instSleep : Option (Cpu ω) :=
  if c.execState = .norm then
    if c.sr &&& srMdMask = 0 then c.setException excpGenIllegalInst
    else some { c with
      execState := if c.reg regStbcr &&& stbcrStbyMask ≠ 0 then .standby else .sleep }
  else some c

/-- With a debugger attached TRAPA stops there; otherwise it is not implemented. -/
def instUnaryTrapaDisp : Option (Cpu ω) := if env.debugger then some c else none

def instBinaryLdcGenSr : Option (Cpu ω) := c.setSr (c.reg (rn inst))

def memoryMapRead32 (addr : UInt32) : Option (UInt32 × Cpu ω) := do
  let (val, effects, world) ← env.read32 addr c
  let c ← c.applyAll effects
  some (val, { c with world })

/-- The address register is incremented before the banks are switched. -/
def instBinaryLdclIndgenincSr : Option (Cpu ω) := do
  let (val, c) ← c.memoryMapRead32 env (c.reg (rn inst))
  (c.write (rn inst) (c.reg (rn inst) + 4)).setSr val

def instBinaryLdsGenFpscr : Cpu ω := c.setFpscr (c.reg (rn inst))

def instBinaryLdslIndgenincFpscr : Option (Cpu ω) := do
  let (val, c) ← c.memoryMapRead32 env (c.reg (rn inst))
  let c := c.setFpscr val
  some (c.write (rn inst) (c.reg (rn inst) + 4))

def instFrchg : Cpu ω := (c.write regFpscr (c.fpscr ^^^ fpscrFrMask)).fpuBankSwitch

def instFschg : Cpu ω := c.write regFpscr (c.fpscr ^^^ fpscrSzMask)

def instPlain (f : OpFunc) : Option (Cpu ω) := do
  let (effects, world) ← env.plain f inst c
  let c ← c.applyAll effects
  some { c with world }

end Cpu

/-! ## Executing an instruction -/

/-- The instruction functions of this model. -/
inductive Control
  | rts | rte | unaryBrafGen | unaryBsrfGen | unaryBfDisp | unaryBfsDisp | unaryBtDisp
  | unaryBtsDisp | unaryBraDisp | unaryBsrDisp | unaryJmpIndgen | unaryJsrIndgen | sleep
  | unaryTrapaDisp | binaryLdcGenSr | binaryLdclIndgenincSr | binaryLdsGenFpscr
  | binaryLdslIndgenincFpscr | frchg | fschg | invalid
deriving DecidableEq

def OpFunc.control : OpFunc → Option Control
  | .native .rts => some .rts
  | .native .rte => some .rte
  | .native .unaryBrafGen => some .unaryBrafGen
  | .native .unaryBsrfGen => some .unaryBsrfGen
  | .native .unaryBfDisp => some .unaryBfDisp
  | .native .unaryBfsDisp => some .unaryBfsDisp
  | .native .unaryBtDisp => some .unaryBtDisp
  | .native .unaryBtsDisp => some .unaryBtsDisp
  | .native .unaryBraDisp => some .unaryBraDisp
  | .native .unaryBsrDisp => some .unaryBsrDisp
  | .native .unaryJmpIndgen => some .unaryJmpIndgen
  | .native .unaryJsrIndgen => some .unaryJsrIndgen
  | .fallback .sleep => some .sleep
  | .fallback .unaryTrapaDisp => some .unaryTrapaDisp
  | .fallback .binaryLdcGenSr => some .binaryLdcGenSr
  | .fallback .binaryLdclIndgenincSr => some .binaryLdclIndgenincSr
  | .fallback .binaryLdsGenFpscr => some .binaryLdsGenFpscr
  | .fallback .binaryLdslIndgenincFpscr => some .binaryLdslIndgenincFpscr
  | .fallback .frchg => some .frchg
  | .fallback .fschg => some .fschg
  | .fallback .invalid => some .invalid
  | _ => none

def Control.run (k : Control) (env : Env ω) (inst : UInt16) (c : Cpu ω) : Option (Cpu ω) :=
  match k with
  | .rts => some c.instRts
  | .rte => c.instRte
  | .unaryBrafGen => some (c.instUnaryBrafGen inst)
  | .unaryBsrfGen => some (c.instUnaryBsrfGen inst)
  | .unaryBfDisp => some (c.instUnaryBfDisp inst)
  | .unaryBfsDisp => some (c.instUnaryBfsDisp inst)
  | .unaryBtDisp => some (c.instUnaryBtDisp inst)
  | .unaryBtsDisp => some (c.instUnaryBtsDisp inst)
  | .unaryBraDisp => some (c.instUnaryBraDisp inst)
  | .unaryBsrDisp => some (c.instUnaryBsrDisp inst)
  | .unaryJmpIndgen => some (c.instUnaryJmpIndgen inst)
  | .unaryJsrIndgen => some (c.instUnaryJsrIndgen inst)
  | .sleep => c.instSleep
  | .unaryTrapaDisp => c.instUnaryTrapaDisp env
  | .binaryLdcGenSr => c.instBinaryLdcGenSr inst
  | .binaryLdclIndgenincSr => c.instBinaryLdclIndgenincSr env inst
  | .binaryLdsGenFpscr => some (c.instBinaryLdsGenFpscr inst)
  | .binaryLdslIndgenincFpscr => c.instBinaryLdslIndgenincFpscr env inst
  | .frchg => some c.instFrchg
  | .fschg => some c.instFschg
  | .invalid => c.instInvalid

def OpFunc.run (f : OpFunc) (env : Env ω) (inst : UInt16) (c : Cpu ω) : Option (Cpu ω) :=
  match f.control with
  | some k => k.run env inst c
  | none => c.instPlain env inst f

/-- `sh4_inst_increments_pc`: only TRAPA does not. -/
def incrementsPc (inst : UInt16) : Bool := inst &&& 0xff00 != 0xc300

namespace Cpu

variable (env : Env ω) (inst : UInt16) (c : Cpu ω)

def advance : Cpu ω := if incrementsPc inst then c.write regPc (c.pc + 2) else c

/-- After the instruction function: if the instruction was in a delay slot, the branch is taken
and the interrupts that came up meanwhile are entered. -/
def finishInst (slot : Bool) (addr : UInt32) : Option (Cpu ω) :=
  if slot then
    { (c.advance inst).write regPc addr with delayedBranch := false }.checkInterruptsNoDelayBranchCheck
      refreshIntc
  else some (c.advance inst)

def doExecInst : Option (Cpu ω) :=
  let op := sh4DecodeInst inst
  if !(c.delayedBranch && op.pcRelative) then
    (op.func.run env inst c).bind fun c' =>
      c'.finishInst inst c.delayedBranch c.delayedBranchAddr
  else c.setException excpSlotIllegalInst

end Cpu

/-! ## The processor among its devices -/

/-- What happens to the processor from outside an instruction is the work of event handlers. The
refresh event is taken from the event list and then its handler runs. -/
inductive Action
  | inst (word : UInt16)
  | setInterrupt (line : Nat) (code : UInt32)
  | setIrlInterrupt (val : UInt32)
  | popRefresh
  | runRefresh

/-- While the handler of the refresh event runs, nothing else does. -/
def Cpu.act (env : Env ω) (c : Cpu ω) (a : Action) : Option (Cpu ω) :=
  match c.refreshRunning, a with
  | false, .inst word => c.doExecInst env word
  | false, .setInterrupt line code => c.setInterrupt line code
  | false, .setIrlInterrupt val => c.setIrlInterrupt val
  | false, .popRefresh =>
    if c.refreshQueued then some { c with refreshQueued := false, refreshRunning := true } else none
  | true, .runRefresh => (c.doRefreshIntcDeferred).map fun c => { c with refreshRunning := false }
  | _, _ => none

/-- One action: the state before and after it. -/
structure Happened (ω : Type) where
  action : Action
  before : Cpu ω
  after : Cpu ω

def Cpu.step (env : Env ω) (c : Cpu ω) (a : Action) : Option (Happened ω × Cpu ω) :=
  (c.act env a).map fun c' => (⟨a, c, c'⟩, c')

/-! ## Small machines -/

/-- Instruction functions that are not modelled do nothing, and no memory can be read. -/
def bareEnv : Env Unit where
  plain _ _ _ := some ([], ())
  read32 _ _ := none
  read32_viaMemory := nofun
  debugger := false

/-- A processor after a reset, with the given registers besides SR, FPSCR and PC. -/
def resetCpu (reg : Nat → UInt32) : Cpu Unit where
  reg i :=
    if i = regSr then 0x700080f0 else if i = regFpscr then 0x41
    else if i = regPc then 0xa0000000 else reg i
  delayedBranch := false
  delayedBranchAddr := 0
  execState := .norm
  intc := ⟨fun _ => 0, false, ⟨false, 0, 0⟩⟩
  refreshScheduled := false
  refreshQueued := false
  refreshRunning := false
  world := ()
  entered := []

end Sh4

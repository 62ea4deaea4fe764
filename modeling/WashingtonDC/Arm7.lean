import WashingtonDC.ByteMemory
import WashingtonDC.IntMath

/-!
# The ARM7 core

`struct arm7`, the instruction functions, the decoder, the three-stage pipeline and the entry of
exceptions. `Core` is what the instruction functions touch; `Cpu` adds the two buffered
instructions. An error raised by the emulator is `none`. The AICA registers are a parameter: an
access may change their state and wave memory, and a write may clear the FIQ line. All other line
calls come from outside, between two instructions. The flags of `enum arm7_excp` that nothing
sets (data abort, IRQ, prefetch abort) are left out, and so are logging and watchpoints.

Shifts by 32 or more bits, undefined in C, behave as on the x86 host: the amount is taken
modulo 32.
-/
namespace Arm7

/-! ## Registers and modes -/

abbrev regPc : Nat := 15
abbrev regR8Fiq : Nat := 16
abbrev regR14Fiq : Nat := 22
abbrev regR13Svc : Nat := 23
abbrev regR14Svc : Nat := 24
abbrev regR13Abt : Nat := 25
abbrev regR13Irq : Nat := 27
abbrev regR13Und : Nat := 29
abbrev regCpsr : Nat := 31
abbrev regSpsrFiq : Nat := 32
abbrev regSpsrSvc : Nat := 33
abbrev regSpsrAbt : Nat := 34
abbrev regSpsrUnd : Nat := 36

abbrev nMask : UInt32 := 0x80000000
abbrev zMask : UInt32 := 0x40000000
abbrev cMask : UInt32 := 0x20000000
abbrev vMask : UInt32 := 0x10000000
abbrev iMask : UInt32 := 0x80
abbrev fMask : UInt32 := 0x40
abbrev mMask : UInt32 := 0x1f

inductive Mode
  | user | fiq | irq | svc | abt | und
deriving DecidableEq

def Mode.bits : Mode → UInt32
  | .user => 0x10
  | .fiq => 0x11
  | .irq => 0x12
  | .svc => 0x13
  | .abt => 0x17
  | .und => 0x1b

/-- The mode a status register selects; the other values of the field are errors. -/
def modeOf (cpsr : UInt32) : Option Mode :=
  [Mode.user, .fiq, .irq, .svc, .abt, .und].find? fun mode => cpsr &&& mMask = mode.bits

/-- Where general register `n` is kept in a mode. -/
def Mode.genReg (mode : Mode) (n : Nat) : Nat :=
  let banked (first base : Nat) := if first ≤ n ∧ n ≤ 14 then n - first + base else n
  match mode with
  | .user => n
  | .fiq => banked 8 regR8Fiq
  | .irq => banked 13 regR13Irq
  | .svc => banked 13 regR13Svc
  | .abt => banked 13 regR13Abt
  | .und => banked 13 regR13Und

/-- The saved status register of a mode. For IRQ mode the source returns `ARM7_EXCP_IRQ`, which
is the index of R8. -/
def Mode.spsrIdx : Mode → Option Nat
  | .fiq => some regSpsrFiq
  | .irq => some 8
  | .svc => some regSpsrSvc
  | .abt => some regSpsrAbt
  | .und => some regSpsrUnd
  | .user => none

/-! ## State -/

/-- Wave memory and the state of the AICA. -/
structure Mem (σ : Type) where
  wave : ByteMemory.Memory
  aica : σ

structure Excp where
  reset : Bool
  swi : Bool
deriving DecidableEq

structure Core (σ : Type) where
  reg : Nat → UInt32
  excp : Excp
  enabled : Bool
  fiqLine : Bool
  excpDirty : Bool
  pipelineFull : Bool
  mem : Mem σ

structure Cpu (σ : Type) extends Core σ where
  pipeline0 : UInt32
  pipelinePc0 : UInt32
  pipeline1 : UInt32
  pipelinePc1 : UInt32

/-- The calls that drive the lines of the core. -/
inductive LineCall
  | setFiq | clearFiq
  | reset (val : Bool)
deriving DecidableEq

/-- The AICA registers as the ARM7 sees them. A write says whether it cleared the FIQ line. -/
structure AicaSys (σ : Type) where
  read8 : UInt32 → Mem σ → Option (UInt8 × Mem σ)
  read32 : UInt32 → Mem σ → Option (UInt32 × Mem σ)
  write8 : UInt32 → UInt8 → Mem σ → Option (Mem σ × Bool)
  write32 : UInt32 → UInt32 → Mem σ → Option (Mem σ × Bool)

variable {σ : Type}

namespace Core

variable (c : Core σ)

def write (i : Nat) (v : UInt32) : Core σ := { c with reg := Function.update c.reg i v }

def cpsr : UInt32 := c.reg regCpsr

def pc : UInt32 := c.reg regPc

def genReg (n : Nat) : Option Nat := (modeOf c.cpsr).map (·.genReg n)

def get (n : Nat) : Option UInt32 := (c.genReg n).map c.reg

def set (n : Nat) (v : UInt32) : Option (Core σ) := (c.genReg n).map (c.write · v)

def spsrIdx : Option Nat := (modeOf c.cpsr).bind Mode.spsrIdx

def nextInst : Core σ := c.write regPc (c.pc + 4)

def resetPipeline : Core σ := { c with pipelineFull := false }

def setFiq : Core σ := { c with fiqLine := true, excpDirty := true }

def clearFiq : Core σ := { c with fiqLine := false }

def reset (val : Bool) : Core σ :=
  let c := if !c.enabled && val then
      { c with excp := { c.excp with reset := true }, excpDirty := true }
    else c
  { c with enabled := val }

def call : LineCall → Core σ
  | .setFiq => c.setFiq
  | .clearFiq => c.clearFiq
  | .reset val => c.reset val

def afterWrite (mem : Mem σ) (clears : Bool) : Core σ :=
  if clears then { c with mem }.clearFiq else { c with mem }

end Core

namespace Core

variable (c : Core σ) (i : Nat) (v : UInt32)

theorem write_reg (j : Nat) : (c.write i v).reg j = if j = i then v else c.reg j := by
  simp [write, Function.update_apply]

theorem write_pc_ne (ne : i ≠ regPc) : (c.write i v).pc = c.pc := by
  simp [pc, write_reg, ne.symm]

@[simp] theorem write_pc_self : (c.write regPc v).pc = v := by
  simp [pc, write_reg]

end Core

/-! ## Memory -/

abbrev waveMemLen : Nat := 0x200000

/-- `aica_wave_mem_read_32`. -/
def waveMemRead32 (mem : Mem σ) (addr : UInt32) : Option UInt32 :=
  if addr.toNat + 3 < waveMemLen then some (.ofNat (ByteMemory.load mem.wave addr.toNat 4))
  else none

def doFetchInst (mem : Mem σ) (addr : UInt32) : Option UInt32 :=
  if addr ≤ 0x007fffff then waveMemRead32 mem (addr &&& 0x001fffff) else some 0xffffffff

section
variable (aica : AicaSys σ) (addr : UInt32) (c : Core σ)

/-- Reads through the map of `construct_arm7_mem_map`: unmapped addresses read as zero. -/
def memoryMapRead32 : Option (UInt32 × Core σ) :=
  if addr + 3 ≤ 0x007fffff then (waveMemRead32 c.mem (addr &&& 0x001fffff)).map (·, c)
  else if addr ≥ 0x00800000 ∧ addr + 3 ≤ 0x00807fff then
    (aica.read32 addr c.mem).map fun (val, mem) => (val, { c with mem })
  else some (0, c)

def memoryMapRead8 : Option (UInt8 × Core σ) :=
  if addr ≤ 0x007fffff then some (c.mem.wave (addr &&& 0x001fffff).toNat, c)
  else if addr ≥ 0x00800000 ∧ addr ≤ 0x00807fff then
    (aica.read8 addr c.mem).map fun (val, mem) => (val, { c with mem })
  else some (0, c)

def memoryMapWrite32 (val : UInt32) : Option (Core σ) :=
  if addr + 3 ≤ 0x007fffff then
    if (addr &&& 0x001fffff).toNat + 3 < waveMemLen then
      some { c with
        mem.wave := ByteMemory.store c.mem.wave (addr &&& 0x001fffff).toNat 4 val.toNat }
    else none
  else if addr ≥ 0x00800000 ∧ addr + 3 ≤ 0x00807fff then
    (aica.write32 addr val c.mem).map fun (mem, clears) => c.afterWrite mem clears
  else some c

def memoryMapWrite8 (val : UInt8) : Option (Core σ) :=
  if addr ≤ 0x007fffff then
    some { c with mem.wave := Function.update c.mem.wave (addr &&& 0x001fffff).toNat val }
  else if addr ≥ 0x00800000 ∧ addr ≤ 0x00807fff then
    (aica.write8 addr val c.mem).map fun (mem, clears) => c.afterWrite mem clears
  else some c
end

/-! ## Conditions -/

inductive Cond
  | eq | ne | cs | cc | mi | pl | vs | vc | hi | ls | ge | lt | gt | le | al | nv
deriving DecidableEq

/-- `arm7_cond`: the four upper bits of an instruction. -/
def cond (inst : UInt32) : Cond :=
  match (inst >>> 28).toNat with
  | 0 => .eq | 1 => .ne | 2 => .cs | 3 => .cc | 4 => .mi | 5 => .pl | 6 => .vs | 7 => .vc
  | 8 => .hi | 9 => .ls | 10 => .ge | 11 => .lt | 12 => .gt | 13 => .le | 14 => .al | _ => .nv

def Cond.holds (cpsr : UInt32) : Cond → Bool
  | .eq => z
  | .ne => !z
  | .cs => c
  | .cc => !c
  | .mi => n
  | .pl => !n
  | .vs => v
  | .vc => !v
  | .hi => !z && c
  | .ls => !c || z
  | .ge => n == v
  | .lt => n != v
  | .gt => !z && n == v
  | .le => !(!z && n == v)
  | .al => true
  | .nv => false
where
  n : Bool := cpsr &&& nMask != 0
  z : Bool := cpsr &&& zMask != 0
  c : Bool := cpsr &&& cMask != 0
  v : Bool := cpsr &&& vMask != 0

/-! ## Operands -/

/-- Bit `n` of an instruction. -/
def bit (inst : UInt32) (n : UInt32) : Bool := inst &&& (1 <<< n) != 0

/-- The register number in the four bits from bit `n` on. -/
def regField (inst : UInt32) (n : UInt32) : Nat := ((inst >>> n) &&& 0xf).toNat

def ror (val : UInt32) (nBits : Nat) : UInt32 :=
  (fun x : UInt32 => ((x &&& 1) <<< 31) ||| (x >>> 1))^[nBits] val

def decodeImmed (inst : UInt32) : UInt32 := ror (inst &&& 0xff) (2 * regField inst 8)

/-- The shifted value and the carry out of the shifter. A shift of zero bits is an error for the
arithmetic shift and the rotation. -/
def doDecodeShift (shiftFn srcVal shiftAmt : UInt32) (carry : Bool) : Option (UInt32 × Bool) :=
  let shiftedOut := if shiftAmt < 32 then (1 <<< (shiftAmt - 1)) &&& srcVal != 0 else bit srcVal 31
  match shiftFn.toNat with
  | 0 =>
    some (srcVal <<< shiftAmt,
      if shiftAmt = 0 then carry
      else if shiftAmt < 32 then (1 <<< (31 - shiftAmt + 1)) &&& srcVal != 0 else false)
  | 1 => some (srcVal >>> shiftAmt, if shiftAmt = 0 then carry else shiftedOut)
  | 2 =>
    if shiftAmt = 0 then none
    else some ((srcVal.toInt32 >>> shiftAmt.toInt32).toUInt32, shiftedOut)
  | _ =>
    if shiftAmt = 0 then none
    else some (ror srcVal shiftAmt.toNat, bit (ror srcVal shiftAmt.toNat) 31)

/-- The shift operand of loads and stores: the amount is always immediate. -/
def decodeShiftLdrStr (inst : UInt32) (carry : Bool) (c : Core σ) : Option (UInt32 × Bool) :=
  if bit inst 4 then none
  else do
    let srcVal ← c.get (regField inst 0)
    doDecodeShift ((inst >>> 5) &&& 3) srcVal ((inst >>> 7) &&& 0x1f) carry

def shiftAmount (inst : UInt32) (c : Core σ) : Option UInt32 :=
  if bit inst 4 then
    if bit inst 7 then none
    else if regField inst 8 = 15 then none
    else (c.get (regField inst 8)).map (· &&& 0xff)
  else some ((inst >>> 7) &&& 0x1f)

def decodeShift (inst : UInt32) (carry : Bool) (c : Core σ) : Option (UInt32 × Bool) := do
  let shiftAmt ← shiftAmount inst c
  let srcVal ← c.get (regField inst 0)
  doDecodeShift ((inst >>> 5) &&& 3) srcVal shiftAmt carry

/-! ## Data processing -/

inductive DataOp
  | orr | eor | and | bic | mov | add | sub | rsb | cmp | tst | mvn | cmn
deriving DecidableEq

structure Flags where
  n : Bool
  c : Bool
  z : Bool
  v : Bool

/-- The `arm7_op_…` functions. Logical operations leave the carry of the shifter and do not
compute an overflow; comparisons return a value that is never written. -/
def DataOp.eval (op : DataOp) (lhs rhs : UInt32) (cOut : Bool) : UInt32 × Flags :=
  match op with
  | .and => logic (lhs &&& rhs)
  | .eor => logic (lhs ^^^ rhs)
  | .orr => logic (lhs ||| rhs)
  | .mov => logic rhs
  | .mvn => logic (~~~rhs)
  | .bic => logic (lhs &&& ~~~rhs)
  | .tst => (0xdeadbabe, (logic (lhs &&& rhs)).2)
  | .add => arith (IntMath.addFlags lhs rhs false) false
  | .cmn => (0xdeadbeef, (arith (IntMath.addFlags lhs rhs false) false).2)
  | .sub => arith (IntMath.subFlags rhs lhs false) true
  | .rsb => arith (IntMath.subFlags lhs rhs false) true
  | .cmp => (0xdeadbabe, (arith (IntMath.subFlags rhs lhs false) true).2)
where
  logic (val : UInt32) : UInt32 × Flags := (val, ⟨bit val 31, cOut, val == 0, false⟩)
  arith (r : UInt32 × Bool × Bool) (borrow : Bool) : UInt32 × Flags :=
    (r.1, ⟨bit r.1 31, r.2.1 != borrow, r.1 == 0, r.2.2⟩)

/-- The three arguments of `DEF_INST_FN` besides the name. -/
structure DataKind where
  isLogic : Bool
  requireS : Bool
  writeResult : Bool

def DataOp.kind : DataOp → DataKind
  | .orr | .eor | .and | .bic | .mov | .mvn => ⟨true, false, true⟩
  | .add | .sub | .rsb => ⟨false, false, true⟩
  | .cmp | .cmn => ⟨false, true, false⟩
  | .tst => ⟨true, true, false⟩

def flagBits (isLogic : Bool) (flags : Flags) : UInt32 :=
  (if flags.z then zMask else 0) ||| (if flags.n then nMask else 0) |||
    (if flags.c then cMask else 0) ||| (if !isLogic && flags.v then vMask else 0)

def flagMask (isLogic : Bool) : UInt32 :=
  zMask ||| nMask ||| cMask ||| (if isLogic then 0 else vMask)

/-- The two operands of a data instruction and the carry out of the shifter. -/
def dataOperands (inst : UInt32) (c : Core σ) : Option (UInt32 × UInt32 × Bool) := do
  let carryIn := c.cpsr &&& cMask != 0
  let rn := regField inst 16
  let input1 ← c.get rn
  if bit inst 25 then some (input1, decodeImmed inst, carryIn)
  else
    (decodeShift inst carryIn c).map fun (input2, cOut) =>
      (if bit inst 4 && rn == 15 then input1 + 4 else input1, input2, cOut)

/-- What a data instruction does to the status register: it sets the flags, or restores the
saved status register when R15 is the destination. -/
def dataStatus (kind : DataKind) (inst : UInt32) (flags : Flags) (c : Core σ) :
    Option (Core σ) :=
  let sFlag := bit inst 20
  let rd := regField inst 12
  if sFlag && rd != 15 then
    some (c.write regCpsr
      ((c.cpsr &&& ~~~(flagMask kind.isLogic)) ||| flagBits kind.isLogic flags))
  else if sFlag then (c.spsrIdx).map fun i => c.write regCpsr (c.reg i)
  else if kind.requireS then none
  else some c

/-- The result goes to the destination if the operation has one; writing R15 is a jump. -/
def dataResult (kind : DataKind) (inst res : UInt32) (c : Core σ) : Option (Core σ) :=
  let rd := regField inst 12
  if kind.writeResult then
    (c.set rd res).map fun c => if rd = 15 then c.resetPipeline else c.nextInst
  else some c.nextInst

/-- The body that `DEF_INST_FN` gives to all data processing functions. -/
def instData (op : DataOp) (inst : UInt32) (c : Core σ) : Option (Core σ) := do
  let (input1, input2, cOut) ← dataOperands inst c
  let c ← dataStatus op.kind inst (op.eval input1 input2 cOut).2 c
  dataResult op.kind inst (op.eval input1 input2 cOut).1 c

/-! ## Other instructions -/

def branchLink (inst : UInt32) (c : Core σ) : Option (Core σ) :=
  if bit inst 24 then c.set 14 (c.pc - 4) else some c

def instBranch (inst : UInt32) (c : Core σ) : Option (Core σ) := do
  let offs := inst &&& 0x00ffffff
  let offs := (if bit offs 23 then offs ||| 0xff000000 else offs) <<< 2
  let c ← branchLink inst c
  some (c.write regPc (offs + c.pc)).resetPipeline

def rotateLoaded (addr val : UInt32) : UInt32 :=
  match (addr % 4).toNat with
  | 3 => ((val >>> 24) &&& (0xffffff : UInt32)) ||| (val <<< 8)
  | 2 => ((val >>> 16) &&& (0xffffff : UInt32)) ||| (val <<< 16)
  | 1 => ((val >>> 8) &&& (0xffffff : UInt32)) ||| (val <<< 24)
  | _ => val

section
variable (aica : AicaSys σ) (inst : UInt32) (addr : UInt32) (c : Core σ)

def storedVal : Option UInt32 :=
  (c.get (regField inst 12)).map (· + if regField inst 12 = 15 then 4 else 0)

/-- A store clears the two lower bits of the address, also for the write-back that follows. -/
def ldrStrStore : Option (UInt32 × Core σ) := do
  let val ← storedVal inst c
  if bit inst 22 then (memoryMapWrite8 aica addr c val.toUInt8).map (addr, ·)
  else (memoryMapWrite32 aica (addr &&& ~~~3) c val).map (addr &&& ~~~3, ·)

def ldrStrLoad : Option (UInt32 × Core σ) :=
  let rd := regField inst 12
  if bit inst 22 then do
    let (val, c) ← memoryMapRead8 aica addr c
    (c.set rd val.toUInt32).map (addr, ·)
  else do
    let (val, c) ← memoryMapRead32 aica (addr &&& ~~~3) c
    (c.set rd (rotateLoaded addr val)).map (addr, ·)

def ldrStrAccess : Option (UInt32 × Core σ) :=
  if bit inst 20 then ldrStrLoad aica inst addr c else ldrStrStore aica inst addr c

def ldrStrOffset : Option UInt32 :=
  if bit inst 25 then (decodeShiftLdrStr inst (c.cpsr &&& cMask != 0) c).map (·.1)
  else some (inst &&& 0xfff)

def ldrStrMove (offs : UInt32) : UInt32 := if bit inst 23 then addr + offs else addr - offs

/-- Write-back is implied when the offset is applied after the access; asking for it then is an
error, and so is writing back to R15. -/
def ldrStrWriteback (offs : UInt32) : Option (Core σ) :=
  let rn := regField inst 16
  let pre := bit inst 24
  let writeback := bit inst 21
  if !pre && writeback then none
  else if pre && !writeback then some c
  else if rn = 15 then none
  else c.set rn (if pre then addr else ldrStrMove inst addr offs)

end

def instLdrStr (aica : AicaSys σ) (inst : UInt32) (c : Core σ) : Option (Core σ) := do
  let offs ← ldrStrOffset inst c
  let base ← c.get (regField inst 16)
  let (addr, c) ←
    ldrStrAccess aica inst (if bit inst 24 then ldrStrMove inst base offs else base) c
  let c ← ldrStrWriteback inst addr c offs
  some (if bit inst 20 && regField inst 12 == 15 then c.resetPipeline else c.nextInst)

/-- One transfer of a block: the address moves before or after the access. -/
def blockStep (pre up : Bool) (access : UInt32 → Core σ → Option (Core σ))
    (s : UInt32 × Core σ) : Option (UInt32 × Core σ) := do
  let next := if up then s.1 + 4 else s.1 - 4
  let c ← access (if pre then next else s.1) s.2
  some (next, c)

def blockLoop (pre up : Bool) (access : Nat → UInt32 → Core σ → Option (Core σ)) (regList : UInt32)
    (order : List Nat) (s : UInt32 × Core σ) : Option (UInt32 × Core σ) :=
  order.foldlM (fun s n =>
    if bit regList (UInt32.ofNat n) then blockStep pre up (access n) s else some s) s

section
variable (aica : AicaSys σ)

def blockLoad (n : Nat) (addr : UInt32) (c : Core σ) : Option (Core σ) := do
  let (val, c) ← memoryMapRead32 aica addr c
  c.set n val

def blockStore (n : Nat) (addr : UInt32) (c : Core σ) : Option (Core σ) :=
  if n = 15 then memoryMapWrite32 aica addr c (c.pc + 4)
  else do
    let val ← c.get n
    memoryMapWrite32 aica addr c val

def blockStatus (psrUserForce : Bool) (c : Core σ) : Option (Core σ) :=
  if psrUserForce then (c.spsrIdx).map fun i => c.write regCpsr (c.reg i) else some c

/-- Loading R15 upwards restores the status register first when the S bit is set. -/
def blockLoadPc (psrUserForce : Bool) (addr : UInt32) (c : Core σ) : Option (Core σ) := do
  let c ← blockStatus psrUserForce c
  let (val, c) ← memoryMapRead32 aica addr c
  some (c.write regPc val)

def blockXferLoop (inst : UInt32) (s : UInt32 × Core σ) : Option (UInt32 × Core σ) :=
  let regList := inst &&& 0xffff
  let pre := bit inst 24
  let up := bit inst 23
  let psrUserForce := bit inst 22
  let load := bit inst 20
  if up then
    if load then do
      let s ← blockLoop pre up (blockLoad aica) regList (List.range 15) s
      if bit regList 15 then blockStep pre up (blockLoadPc aica psrUserForce) s else some s
    else if psrUserForce then none
    else blockLoop pre up (blockStore aica) regList (List.range 16) s
  else if psrUserForce then none
  else if load then blockLoop pre up (blockLoad aica) regList (List.range 16).reverse s
  else blockLoop pre up (blockStore aica) regList (List.range 16).reverse s

def blockXfer (inst : UInt32) (c : Core σ) : Option (Core σ) :=
  let rn := regField inst 16
  let regList := inst &&& 0xffff
  let psrUserForce := bit inst 22
  let writeback := bit inst 21
  let load := bit inst 20
  if psrUserForce && (!bit regList 15 || !load) then none
  else if rn = 15 then none
  else if writeback && bit regList (UInt32.ofNat rn) then none
  else if regList = 0 then none
  else do
    let baseIdx ← c.genReg rn
    if c.reg baseIdx % 4 ≠ 0 then none
    else do
      let (base, c) ← blockXferLoop aica inst (c.reg baseIdx, c)
      let c := if writeback then c.write baseIdx base else c
      some (if load && bit regList 15 then c.resetPipeline else c.nextInst)
end

def psrIdx (inst : UInt32) (c : Core σ) : Option Nat :=
  if bit inst 22 then c.spsrIdx else some regCpsr

def instMrs (inst : UInt32) (c : Core σ) : Option (Core σ) := do
  let src ← psrIdx inst c
  let c ← c.set (regField inst 12) (c.reg src)
  some c.nextInst

def instMsr (inst : UInt32) (c : Core σ) : Option (Core σ) := do
  let dst ← psrIdx inst c
  let val ← c.get (inst &&& 0xff).toNat
  some (c.write dst val).nextInst

def mulResult (inst : UInt32) (c : Core σ) : Option UInt32 := do
  let prod := (← c.get (regField inst 0)) * (← c.get (regField inst 8))
  if bit inst 21 then (c.get (regField inst 12)).map (prod + ·) else some prod

def mulStatus (cpsr val : UInt32) : UInt32 :=
  ((cpsr &&& ~~~(nMask ||| zMask)) ||| (if bit val 31 then nMask else 0) |||
    (if val = 0 then zMask else 0)) &&& ~~~cMask

def instMul (inst : UInt32) (c : Core σ) : Option (Core σ) :=
  let rd := regField inst 16
  let rn := regField inst 12
  let rs := regField inst 8
  let rm := regField inst 0
  if rd = rm then none
  else if rd = 15 ∨ rn = 15 ∨ rs = 15 ∨ rm = 15 then none
  else do
    let val ← mulResult inst c
    let c ← c.set rd val
    some (if bit inst 20 then c.write regCpsr (mulStatus c.cpsr val) else c).nextInst

/-- The exception is entered by the next fetch; R15 stays as it is. -/
def instSwi (c : Core σ) : Core σ :=
  { c with excp := { c.excp with swi := true }, excpDirty := true }

/-! ## Decoding and execution -/

inductive Op
  | branch | ldrStr | blockXfer | mrs | msr | mul | swi
  | data (op : DataOp)
deriving DecidableEq

structure Opcode where
  fn : Op
  mask : UInt32
  val : UInt32
  nCycles : Nat

def dataOpcode (op : DataOp) (code : UInt32) : Opcode := ⟨.data op, 0x0de00000, code <<< 21, 3⟩

def ops : List Opcode :=
  [⟨.branch, 0x0e000000, 0x0a000000, 3⟩, ⟨.ldrStr, 0x0c000000, 0x04000000, 3⟩,
   ⟨.blockXfer, 0x0e000000, 0x08000000, 3⟩, ⟨.mrs, 0x0fbf0fff, 0x010f0000, 1⟩,
   ⟨.msr, 0x0fbffff0, 0x0129f000, 1⟩, ⟨.mul, 0x0fc000f0, 0x00000090, 4⟩,
   dataOpcode .orr 12, dataOpcode .eor 1, dataOpcode .bic 14, dataOpcode .mov 13,
   dataOpcode .add 4, dataOpcode .sub 2, dataOpcode .rsb 3, dataOpcode .cmp 10,
   dataOpcode .tst 8, dataOpcode .and 0, dataOpcode .mvn 15, dataOpcode .cmn 11,
   ⟨.swi, 0x0f000000, 0x0f000000, 3⟩]

structure DecodedInst where
  cond : Cond
  op : Op
  inst : UInt32
  cycles : Nat
deriving DecidableEq

def decode (inst : UInt32) : Option DecodedInst :=
  (ops.find? fun op => op.mask &&& inst = op.val).map fun op =>
    ⟨cond inst, op.fn, inst, op.nCycles⟩

section
variable (aica : AicaSys σ)

def Op.run (op : Op) (inst : UInt32) (c : Core σ) : Option (Core σ) :=
  match op with
  | .branch => instBranch inst c
  | .ldrStr => instLdrStr aica inst c
  | .blockXfer => Arm7.blockXfer aica inst c
  | .mrs => instMrs inst c
  | .msr => instMsr inst c
  | .mul => instMul inst c
  | .swi => some (instSwi c)
  | .data op => instData op inst c

def exec (d : DecodedInst) (c : Core σ) : Option (Core σ) :=
  if d.cond.holds c.cpsr then d.op.run aica d.inst c else some c.nextInst
end

/-! ## Exceptions and the pipeline -/

/-- Entering an exception: the status register and the return address are saved in the registers
of the new mode. -/
def Core.enterExcp (c : Core σ) (mode : Mode) (spsr r14 : Nat) (vector pcNext : UInt32) : Core σ :=
  ((((c.write spsr c.cpsr).write r14 (pcNext + 4)).write regPc vector).write regCpsr
    ((c.cpsr &&& ~~~mMask) ||| mode.bits ||| iMask ||| fMask)).resetPipeline

/-- `arm7_check_excp`. The flag of the FIQ is recomputed from the line on every check. -/
def Core.checkExcp (c : Core σ) (pcNext : UInt32) : Core σ :=
  if c.excpDirty then
    let c' :=
      if c.excp.reset then
        { c.enterExcp .svc regSpsrSvc regR14Svc 0 pcNext with
          excp := { c.excp with reset := false } }
      else if c.fiqLine && c.cpsr &&& fMask == 0 then
        c.enterExcp .fiq regSpsrFiq regR14Fiq 0x1c pcNext
      else if c.excp.swi then
        { c.enterExcp .svc regSpsrSvc regR14Svc 0 pcNext with
          excp := { c.excp with swi := false } }
      else c
    { c' with excpDirty := false }
  else c

namespace Cpu

variable (p : Cpu σ)

def pcNext : UInt32 := if p.pipelineFull then p.pipelinePc1 else p.pc

def checkExcp : Cpu σ := { p with toCore := p.toCore.checkExcp p.pcNext }

/-- The first two of the three fetches after a branch, and the cycles they cost. -/
def refill : Option (Nat × Cpu σ) :=
  if p.pipelineFull then some (0, p)
  else do
    let inst0 ← doFetchInst p.mem (p.pc + 4)
    let inst1 ← doFetchInst p.mem p.pc
    some (2, { toCore := { p.toCore.write regPc (p.pc + 8) with pipelineFull := true }
               pipeline0 := inst0, pipelinePc0 := p.pc + 4
               pipeline1 := inst1, pipelinePc1 := p.pc })

def fetchInst : Option (DecodedInst × Cpu σ) := do
  let (cycleCount, p) ← p.checkExcp.refill
  let instFetched ← doFetchInst p.mem p.pc
  let decoded ← decode p.pipeline1
  some ({ decoded with cycles := decoded.cycles + cycleCount },
    { p with
      pipeline0 := instFetched, pipelinePc0 := p.pc
      pipeline1 := p.pipeline0, pipelinePc1 := p.pipelinePc0 })

/-- The body of the loop of `run_to_next_arm7_event`, without the clock. -/
def runInst (aica : AicaSys σ) : Option (Cpu σ) := do
  let (d, q) ← p.fetchInst
  let c ← exec aica d q.toCore
  some { q with toCore := c }

end Cpu

end Arm7

import WashingtonDC.ByteMemory
import WashingtonDC.WordMask

/-!
# Straight code of the x86-64

A machine that executes a list of instructions. Jumps within the list go forward, to the next
place where their label is defined. Execution ends with a jump to an address in a register or
with a return. Writing the lower half of a register clears its upper half. The flags are known
only after a comparison.
-/
namespace X86

inductive Reg
  | rax | rcx | rdx | rbx | rsp | rbp | rsi | rdi
  | r8 | r9 | r10 | r11 | r12 | r13 | r14 | r15
deriving DecidableEq

structure Flags where
  carry : Bool
  zero : Bool

structure State where
  reg : Reg → UInt64
  flags : Option Flags
  mem : ByteMemory.Memory

namespace State

variable (s : State)

def reg32 (r : Reg) : UInt32 := (s.reg r).toUInt32

def set (r : Reg) (v : UInt64) : State := { s with reg := Function.update s.reg r v }

def set32 (r : Reg) (v : UInt32) : State := s.set r v.toUInt64

def set16 (r : Reg) (v : UInt16) : State :=
  s.set r ((s.reg r &&& 0xffffffffffff0000) ||| v.toUInt64)

def setFlags (f : Option Flags) : State := { s with flags := f }

def setMem (mem : ByteMemory.Memory) : State := { s with mem := mem }

/-- The address `(%base, 1, %index)`. -/
def sib (base index : Reg) : Nat := (s.reg base + s.reg index).toNat

end State

inductive Cond
  | below
  | above

def Cond.holds (f : Flags) : Cond → Bool
  | .below => f.carry
  | .above => !f.carry && !f.zero

inductive Inst
  | movReg32Reg32 (src dst : Reg)
  | movImm64Reg64 (imm : UInt64) (dst : Reg)
  | andlImm32Reg32 (imm : UInt32) (dst : Reg)
  | cmplImm32Reg32 (imm : UInt32) (lhs : Reg)
  | movlSibReg (base index dst : Reg)
  | movwSibReg (base index dst : Reg)
  | movlRegSib (src base index : Reg)
  | jcc (cond : Cond) (lbl : Nat)
  | lbl8Define (lbl : Nat)
  | jmpqReg64 (target : Reg)
  | ret

/-- The end of an execution. The code has no end if control runs past its last instruction or if
a jump depends on flags that are not known. -/
inductive Exit
  | jumped (target : UInt64) (s : State)
  | returned (s : State)
  | stuck

/-- The state after an instruction that does not change the flow of control. -/
def Inst.exec (s : State) : Inst → State
  | .movReg32Reg32 src dst => s.set32 dst (s.reg32 src)
  | .movImm64Reg64 imm dst => s.set dst imm
  | .andlImm32Reg32 imm dst => (s.set32 dst (s.reg32 dst &&& imm)).setFlags none
  | .cmplImm32Reg32 imm lhs =>
    s.setFlags (some ⟨s.reg32 lhs < imm, s.reg32 lhs = imm⟩)
  | .movlSibReg base index dst => s.set32 dst (.ofNat (ByteMemory.load s.mem (s.sib base index) 4))
  | .movwSibReg base index dst => s.set16 dst (.ofNat (ByteMemory.load s.mem (s.sib base index) 2))
  | .movlRegSib src base index =>
    s.setMem (ByteMemory.store s.mem (s.sib base index) 4 (s.reg32 src).toNat)
  | _ => s

/-- `skip` is the label that a jump is looking for. -/
def run (skip : Option Nat) : List Inst → State → Exit
  | [], _ => .stuck
  | i :: code, s =>
    match skip, i with
    | some lbl, .lbl8Define l => run (if l = lbl then none else some lbl) code s
    | some lbl, _ => run (some lbl) code s
    | none, .jcc cond lbl =>
      match s.flags with
      | none => .stuck
      | some f => run (if cond.holds f then some lbl else none) code s
    | none, .jmpqReg64 target => .jumped (s.reg target) s
    | none, .ret => .returned s
    | none, i => run none code (i.exec s)

/-! ## Comparisons and jumps -/

theorem below_holds {x bound : UInt32} :
    Cond.below.holds ⟨x < bound, x = bound⟩ = true ↔ x < bound :=
  decide_eq_true_iff

theorem above_holds {x bound : UInt32} :
    Cond.above.holds ⟨x < bound, x = bound⟩ = true ↔ ¬x ≤ bound := by
  rw [UInt32.le_iff_lt_or_eq, not_or]
  simp only [Cond.holds, Bool.and_eq_true, Bool.not_eq_true', decide_eq_false_iff_not]

theorem run_jcc {cond : Cond} {lbl : Nat} {code : List Inst} {s : State} {f : Flags}
    (flags : s.flags = some f) :
    run none (.jcc cond lbl :: code) s = run (if cond.holds f then some lbl else none) code s := by
  simp [run, flags]

theorem run_skip {lbl : Nat} {code : List Inst} (passes : ∀ l, .lbl8Define l ∈ code → l ≠ lbl)
    (rest : List Inst) (s : State) :
    run (some lbl) (code ++ .lbl8Define lbl :: rest) s = run none rest s := by
  induction code with
  | nil => simp [run]
  | cons i code ih =>
    have ih := ih fun l hl => passes l (List.mem_cons_of_mem i hl)
    cases i with
    | lbl8Define l =>
      have hne : l ≠ lbl := passes l List.mem_cons_self
      simpa [run, hne] using ih
    | _ => simpa [run] using ih

/-! ## Registers -/

namespace State

variable {s : State} {r r' : Reg} {v : UInt64} {w : UInt32} {h : UInt16} {f : Option Flags}
  {mem : ByteMemory.Memory}

@[simp] theorem set_same : (s.set r v).reg r = v := by simp [set]

@[simp] theorem set_other (ne : r' ≠ r) : (s.set r v).reg r' = s.reg r' := by simp [set, ne]

@[simp] theorem set32_same : (s.set32 r w).reg r = w.toUInt64 := set_same

@[simp] theorem set32_other (ne : r' ≠ r) : (s.set32 r w).reg r' = s.reg r' := set_other ne

@[simp] theorem reg32_set_same : (s.set r v).reg32 r = v.toUInt32 := by
  rw [reg32, set_same]

@[simp] theorem reg32_set_other (ne : r' ≠ r) : (s.set r v).reg32 r' = s.reg32 r' := by
  simp [reg32, ne]

@[simp] theorem reg32_set32 : (s.set32 r w).reg32 r = w := by
  rw [reg32, set32_same, UInt32.toUInt32_toUInt64]

@[simp] theorem reg32_set32_other (ne : r' ≠ r) : (s.set32 r w).reg32 r' = s.reg32 r' :=
  reg32_set_other ne

@[simp] theorem set_mem : (s.set r v).mem = s.mem := rfl

@[simp] theorem set32_mem : (s.set32 r w).mem = s.mem := rfl

@[simp] theorem set16_mem : (s.set16 r h).mem = s.mem := rfl

@[simp] theorem setFlags_reg : (s.setFlags f).reg r = s.reg r := rfl

@[simp] theorem setFlags_reg32 : (s.setFlags f).reg32 r = s.reg32 r := rfl

@[simp] theorem setFlags_mem : (s.setFlags f).mem = s.mem := rfl

@[simp] theorem setMem_mem : (s.setMem mem).mem = mem := rfl

theorem reg32_set16_masked : (s.set16 r h).reg32 r &&& 0xffff = h.toUInt32 := by
  have hupper : (0xffffffffffff0000 : UInt64).toUInt32 &&& 0xffff = 0 := by decide
  have hlow : (0xffff : UInt32).toNat = 2 ^ 16 - 1 := rfl
  rw [reg32, set16, set_same, UInt64.toUInt32_or, UInt64.toUInt32_and, WordMask.or_and,
    UInt32.and_assoc, hupper, UInt32.and_zero, UInt32.zero_or]
  apply UInt32.toNat_inj.mp
  rw [UInt32.toNat_and, hlow, Nat.and_two_pow_sub_one_eq_mod]
  simp

end State

end X86

import WashingtonDC.Arm7
import WashingtonDC.WordMask

/-!
# The registers of the ARM7 core

The general registers as an instruction sees them in a valid mode, and the bits of instruction
words as bits of numbers. Banks of other modes are not described; that they are not touched follows
from the equations, which name every place that is written.
-/
namespace Arm7

variable {σ : Type}

/-! ## Bits -/

theorem toNat_bitMask {n : Nat} (lt : n < 32) :
    ((1 : UInt32) <<< UInt32.ofNat n).toNat = 2 ^ n := by
  have hamount : (UInt32.ofNat n).toNat = n :=
    UInt32.toNat_ofNat_of_lt' (lt.trans (by decide))
  have hlt : 2 ^ n < 2 ^ 32 := Nat.pow_lt_pow_right (by decide) lt
  rw [UInt32.toNat_shiftLeft, hamount, Nat.mod_eq_of_lt lt, Nat.shiftLeft_eq, UInt32.toNat_one,
    one_mul, Nat.mod_eq_of_lt hlt]

theorem bit_eq_testBit (x : UInt32) {n : Nat} (lt : n < 32) :
    bit x (UInt32.ofNat n) = x.toNat.testBit n :=
  WordMask.bne_zero_eq_testBit x (toNat_bitMask lt)

theorem regField_lt (inst n : UInt32) : regField inst n < 16 := by
  rw [regField, WordMask.toNat_and_low (inst >>> n) (i := 4) rfl]
  exact Nat.mod_lt _ (by decide)

/-! ## Places -/

theorem Mode.genReg_pc (mode : Mode) : mode.genReg 15 = regPc := by
  cases mode <;> rfl

theorem genReg_ne_pc (mode : Mode) {n : Nat} (ne : n ≠ 15) : mode.genReg n ≠ regPc := by
  cases mode <;>
    simp only [Mode.genReg, regPc, regR8Fiq, regR13Irq, regR13Svc, regR13Abt, regR13Und] <;>
    (try split) <;> omega

theorem Mode.genReg_lt (mode : Mode) {n : Nat} (lt : n < 16) : mode.genReg n < regCpsr := by
  cases mode <;>
    simp only [genReg, regCpsr, regR8Fiq, regR13Irq, regR13Svc, regR13Abt, regR13Und] <;>
    (try split) <;> omega

theorem Mode.genReg_inj (mode : Mode) {m n : Nat} (hm : m < 16) (hn : n < 16)
    (same : mode.genReg m = mode.genReg n) : m = n := by
  cases mode <;>
    simp only [genReg, regR8Fiq, regR13Irq, regR13Svc, regR13Abt, regR13Und] at same <;>
    (try split at same) <;> (try split at same) <;> omega

namespace Core

variable {c : Core σ} {mode : Mode} {n : Nat} {v : UInt32}

theorem exists_mode (h : c.get n = some v) :
    ∃ mode, modeOf c.cpsr = some mode ∧ c.reg (mode.genReg n) = v := by
  obtain ⟨i, hi, hv⟩ := Option.map_eq_some_iff.mp h
  obtain ⟨mode, hmode, rfl⟩ := Option.map_eq_some_iff.mp hi
  exact ⟨mode, hmode, hv⟩

section
variable (hmode : modeOf c.cpsr = some mode)
include hmode

theorem genReg_of_mode (n : Nat) : c.genReg n = some (mode.genReg n) := by
  rw [genReg, hmode, Option.map_some]

theorem get_of_mode (n : Nat) : c.get n = some (c.reg (mode.genReg n)) := by
  rw [get, genReg_of_mode hmode, Option.map_some]

theorem set_of_mode (n : Nat) (v : UInt32) : c.set n v = some (c.write (mode.genReg n) v) := by
  rw [set, genReg_of_mode hmode, Option.map_some]

end

theorem write_cpsr (c : Core σ) {i : Nat} (v : UInt32) (ne : i ≠ regCpsr) :
    (c.write i v).cpsr = c.cpsr := by
  rw [cpsr, write_reg, if_neg ne.symm, cpsr]

theorem write_genReg_cpsr (c : Core σ) (mode : Mode) (lt : n < 16) (v : UInt32) :
    (c.write (mode.genReg n) v).cpsr = c.cpsr :=
  c.write_cpsr v (ne_of_lt (mode.genReg_lt lt))

theorem get_write_self (hmode : modeOf c.cpsr = some mode) (lt : n < 16) (v : UInt32) :
    (c.write (mode.genReg n) v).get n = some v := by
  have hmode' : modeOf (c.write (mode.genReg n) v).cpsr = some mode := by
    rw [write_genReg_cpsr c mode lt, hmode]
  rw [get_of_mode hmode', write_reg, if_pos rfl]

theorem get_write_ne {m : Nat} (hmode : modeOf c.cpsr = some mode) (hm : m < 16) (hn : n < 16)
    (ne : m ≠ n) (v : UInt32) : (c.write (mode.genReg n) v).get m = c.get m := by
  have hmode' : modeOf (c.write (mode.genReg n) v).cpsr = some mode := by
    rw [write_genReg_cpsr c mode hn, hmode]
  have hplace : mode.genReg m ≠ mode.genReg n := fun h => ne (mode.genReg_inj hm hn h)
  rw [get_of_mode hmode', get_of_mode hmode, write_reg, if_neg hplace]

@[simp] theorem nextInst_cpsr (c : Core σ) : c.nextInst.cpsr = c.cpsr :=
  c.write_cpsr _ (by decide)

theorem get_nextInst (c : Core σ) (ne : n ≠ 15) : c.nextInst.get n = c.get n := by
  simp only [get, genReg, nextInst_cpsr]
  cases hmode : modeOf c.cpsr with
  | none => rfl
  | some mode => simp [nextInst, write_reg, genReg_ne_pc mode ne]

theorem nextInst_reg (c : Core σ) {i : Nat} (ne : i ≠ regPc) : c.nextInst.reg i = c.reg i := by
  rw [nextInst, write_reg, if_neg ne]

end Core

end Arm7

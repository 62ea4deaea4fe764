import WashingtonDC.CarryChain
import WashingtonDC.IntMath
import WashingtonDC.NonrestoringDivision
import WashingtonDC.Sh4.Functions

/-!
# Arithmetic of several words

The instructions that carry a bit from one word to the next through T: ADDC, SUBC, NEGC, ROTCL, and
DIV0U and DIV1 with the flags Q and M. Chains of the first three compute with numbers of any length,
and the others divide 64 bits by 32 without a sign. Nothing is said about divisors that are not
greater than the upper word, nor about the division of signed numbers.
-/
namespace Sh4

open WordMask Nat List

variable {ω : Type}

abbrev srQMask : UInt32 := 0x100
abbrev srMMask : UInt32 := 0x200

/-! ## The instruction functions -/

namespace Cpu

variable (inst : UInt16) (c : Cpu ω)

def setT (t : Bool) : Cpu ω :=
  c.write regSr (if t then c.sr ||| srTMask else c.sr &&& ~~~srTMask)

def instUnaryRotclGen : Cpu ω :=
  let val := c.reg (rn inst)
  let shiftOut := (val &&& 0x80000000) >>> 31
  let shiftIn := c.sr &&& srTMask
  (c.write regSr ((c.sr &&& ~~~srTMask) ||| shiftOut)).write (rn inst) ((val <<< 1) ||| shiftIn)

def instNoargDiv0u : Cpu ω := c.write regSr (c.sr &&& ~~~(srMMask ||| srQMask ||| srTMask))

/-- The new dividend and the new Q: the shifted dividend with the divisor added or subtracted, and
whether the carry out of that differs from the bit that was shifted out. -/
def div1Step (q m carryFlag : Bool) (dividend divisor : UInt32) : UInt32 × Bool :=
  if q then
    if m then
      let subCarry := decide (dividend - divisor > dividend)
      (dividend - divisor, if carryFlag then subCarry else !subCarry)
    else
      let addCarry := decide (dividend + divisor < dividend)
      (dividend + divisor, if carryFlag then !addCarry else addCarry)
  else if m then
    let addCarry := decide (dividend + divisor < dividend)
    (dividend + divisor, if carryFlag then addCarry else !addCarry)
  else
    let subCarry := decide (dividend - divisor > dividend)
    (dividend - divisor, if carryFlag then !subCarry else subCarry)

def instBinaryDiv1GenGen : Cpu ω :=
  let dividend := c.reg (rn inst)
  let divisor := c.reg (rm inst)
  let q := c.sr &&& srQMask != 0
  let m := c.sr &&& srMMask != 0
  let res := div1Step q m (dividend &&& 0x80000000 != 0) ((dividend <<< 1) ||| (c.sr &&& srTMask))
    divisor
  (c.write regSr ((c.sr &&& ~~~(srQMask ||| srTMask)) |||
    ((if res.2 == m then srTMask else 0) ||| if res.2 then srQMask else 0))).write (rn inst) res.1

def instBinaryAddcGenGen : Cpu ω :=
  let res := IntMath.addFlags (c.reg (rm inst)) (c.reg (rn inst)) c.tFlag
  (c.write (rn inst) res.1).setT res.2.1

def instBinarySubcGenGen : Cpu ω :=
  let res := IntMath.subFlags (c.reg (rm inst)) (c.reg (rn inst)) c.tFlag
  (c.write (rn inst) res.1).setT res.2.1

/-- T is set but never cleared. The negation of the least integer, not defined in C, wraps. -/
def instBinaryNegcGenGen : Cpu ω :=
  let tmp := -c.reg (rm inst)
  let dst := tmp - (c.sr &&& srTMask)
  let flagTOut := tmp != 0 || dst > tmp
  (c.write regSr (c.sr ||| if flagTOut then srTMask else 0)).write (rn inst) dst

end Cpu

def calculations : Functions ω
  | .unaryRotclGen => some Cpu.instUnaryRotclGen
  | .noargDiv0u => some fun _ => Cpu.instNoargDiv0u
  | .binaryDiv1GenGen => some Cpu.instBinaryDiv1GenGen
  | .binaryAddcGenGen => some Cpu.instBinaryAddcGenGen
  | .binarySubcGenGen => some Cpu.instBinarySubcGenGen
  | .binaryNegcGenGen => some Cpu.instBinaryNegcGenGen
  | _ => none

/-! ## Flags and registers -/

namespace Cpu

variable (c : Cpu ω)

theorem toNat_tFlag : c.tFlag.toNat = (c.sr &&& srTMask).toNat := by
  rw [tFlag]
  obtain hzero | hone := and_bit c.sr (show srTMask.toNat = 2 ^ 0 from rfl)
  · rw [hzero]
    rfl
  · rw [hone]
    rfl

/-- What every instruction function of this module does: it writes a general register and flags. -/
def assign (n : Nat) (v sr : UInt32) : Cpu ω := (c.write regSr sr).write n v

variable {n : Nat} {v sr : UInt32}

theorem assign_reg (c : Cpu ω) (n : Nat) (v sr : UInt32) (j : Nat) :
    (c.assign n v sr).reg j = if j = n then v else if j = regSr then sr else c.reg j := by
  rw [assign, write_reg, write_reg]

theorem assign_gen {j : Nat} (lt : j < 16) :
    (c.assign n v sr).reg j = if j = n then v else c.reg j := by
  rw [assign_reg]
  split
  · rfl
  · rw [if_neg (by simp only [regSr]; omega)]

theorem assign_sr (lt : n < 16) : (c.assign n v sr).sr = sr := by
  rw [Cpu.sr, assign_reg, if_neg (by simp only [regSr]; omega), if_pos rfl]

theorem write_self (i : Nat) : c.write i (c.reg i) = c := by
  rw [write, Function.update_eq_self]

theorem write_write_sr (lt : n < 16) : (c.write n v).write regSr sr = c.assign n v sr := by
  rw [assign]
  simp only [write]
  rw [Function.update_comm (by simp only [regSr]; omega)]

theorem setT_eq (lt : n < 16) (t : Bool) :
    (c.write n v).setT t =
      c.assign n v (if t then c.sr ||| srTMask else c.sr &&& ~~~srTMask) := by
  have hsr : (c.write n v).sr = c.sr := by
    rw [Cpu.sr, write_reg, if_neg (by simp only [regSr]; omega)]
    rfl
  rw [setT, hsr, write_write_sr c lt]

end Cpu

theorem setFlag_systemBits (sr : UInt32) (t : Bool) :
    (if t then sr ||| srTMask else sr &&& ~~~srTMask) &&& srSystemBits = sr &&& srSystemBits := by
  cases t
  · exact clear_and_of_disjoint sr (by decide)
  · exact set_and_of_disjoint sr (by decide)

theorem and_upperBit (x : UInt32) :
    x &&& 0x80000000 = if 2 ^ 31 ≤ x.toNat then 0x80000000 else 0 := by
  have hx := x.toNat_lt
  have hand : (x &&& 0x80000000).toNat = x.toNat / 2 ^ 31 % 2 * 2 ^ 31 := by
    rw [UInt32.toNat_and]
    show x.toNat &&& 2 ^ 31 = _
    rw [and_two_pow, toNat_testBit]
  apply UInt32.toNat_inj.mp
  rw [hand]
  split
  · show _ = 2 ^ 31
    omega
  · show _ = 0
    omega

theorem shift_upperBit (x : UInt32) :
    (x &&& 0x80000000) >>> 31 = if 2 ^ 31 ≤ x.toNat then srTMask else 0 := by
  rw [and_upperBit]
  split <;> rfl

theorem toNat_shiftIn (x sr : UInt32) :
    ((x <<< 1) ||| (sr &&& srTMask)).toNat = (2 * x.toNat + (sr &&& srTMask).toNat) % 2 ^ 32 := by
  have hshift : (x <<< 1).toNat = 2 * x.toNat % 2 ^ 32 := by
    rw [UInt32.toNat_shiftLeft]
    show x.toNat <<< 1 % 2 ^ 32 = _
    rw [shiftLeft_eq, Nat.pow_one, mul_comm]
  obtain hzero | hone := and_bit sr (show srTMask.toNat = 2 ^ 0 from rfl)
  · rw [hzero, UInt32.or_zero, hshift]
    simp
  · have hapart : (x <<< 1) &&& srTMask = 0 := by
      apply UInt32.toNat_inj.mp
      rw [UInt32.toNat_and, hshift]
      show 2 * x.toNat % 2 ^ 32 &&& 1 = 0
      rw [and_one_is_mod]
      omega
    rw [hone, ← add_eq_or hapart, toNat_add_of_disjoint hapart, hshift]
    have hmask : srTMask.toNat = 1 := rfl
    omega

/-! ## What the instructions assign -/

theorem Cpu.assign_writes {inst : UInt16} {c : Cpu ω} {v sr : UInt32}
    (same : sr &&& srSystemBits = c.sr &&& srSystemBits) :
    Writes inst c (c.assign (rn inst) v sr) where
  registers := rfl
  others j _ _ hn _ hsr := by rw [assign_reg, if_neg hn, if_neg hsr]
  systemBits := by rw [assign_sr c (rn_lt inst), same]

theorem calculations_plain (f : FallbackFn) (g : UInt16 → Cpu ω → Cpu ω)
    (h : calculations f = some g) : (OpFunc.fallback f).control = none := by
  unfold calculations at h
  split at h <;> first | rfl | cases h

theorem calculations_writes (f : FallbackFn) (g : UInt16 → Cpu ω → Cpu ω)
    (h : calculations f = some g) (inst : UInt16) (c : Cpu ω) : Writes inst c (g inst c) := by
  have hlt := Cpu.rn_lt inst
  unfold calculations at h
  split at h <;> cases h
  · apply Cpu.assign_writes
    apply replace_and_of_disjoint c.sr _ (by decide)
    rw [shift_upperBit]
    split <;> decide
  · have hassign : c.instNoargDiv0u = c.assign (Cpu.rn inst) (c.reg (Cpu.rn inst))
        (c.sr &&& ~~~(srMMask ||| srQMask ||| srTMask)) := by
      rw [← Cpu.write_write_sr c hlt, Cpu.write_self]
      rfl
    show Writes inst c c.instNoargDiv0u
    rw [hassign]
    exact Cpu.assign_writes (clear_and_of_disjoint c.sr (by decide))
  · apply Cpu.assign_writes
    apply replace_and_of_disjoint c.sr _ (by decide)
    split <;> split <;> decide
  · rw [Cpu.instBinaryAddcGenGen, Cpu.setT_eq c hlt]
    exact Cpu.assign_writes (setFlag_systemBits c.sr _)
  · rw [Cpu.instBinarySubcGenGen, Cpu.setT_eq c hlt]
    exact Cpu.assign_writes (setFlag_systemBits c.sr _)
  · apply Cpu.assign_writes
    apply set_and_of_disjoint
    split <;> decide

theorem functionEnv_calculations : (functionEnv calculations : Env ω).Executes calculations :=
  functionEnv_executes calculations_plain calculations_writes

/-! ## Chains -/

section
variable {c : Cpu ω} {inst : UInt16}

theorem tFlag_eq_of_and {t : Bool} (h : c.sr &&& srTMask = if t then srTMask else 0) : c.tFlag = t := by
  rw [Cpu.tFlag, h]
  cases t <;> rfl

theorem Cpu.setT_tFlag (c : Cpu ω) (t : Bool) : (c.setT t).tFlag = t := by
  apply tFlag_eq_of_and
  rw [Cpu.setT, Cpu.sr, Cpu.write_reg, if_pos rfl]
  cases t
  · exact clear_and_self _ _
  · exact set_and_of_subset _ (by decide)

theorem Cpu.setT_reg (c : Cpu ω) (t : Bool) {j : Nat} (lt : j < 16) : (c.setT t).reg j = c.reg j := by
  rw [Cpu.setT, Cpu.write_reg, if_neg (by simp only [regSr]; omega)]

theorem Cpu.addc_column (inst : UInt16) (c : Cpu ω) :
    (c.reg (rm inst)).toNat + (c.reg (rn inst)).toNat + c.tFlag.toNat =
      ((c.instBinaryAddcGenGen inst).reg (rn inst)).toNat +
        2 ^ 32 * (c.instBinaryAddcGenGen inst).tFlag.toNat := by
  rw [instBinaryAddcGenGen, setT_tFlag, setT_reg _ _ (rn_lt inst), write_reg, if_pos rfl]
  exact IntMath.addFlags_exact _ _ _

theorem Cpu.subc_column (inst : UInt16) (c : Cpu ω) :
    (c.reg (rm inst)).toNat + ((c.instBinarySubcGenGen inst).reg (rn inst)).toNat + c.tFlag.toNat =
      (c.reg (rn inst)).toNat + 2 ^ 32 * (c.instBinarySubcGenGen inst).tFlag.toNat := by
  rw [instBinarySubcGenGen, setT_tFlag, setT_reg _ _ (rn_lt inst), write_reg, if_pos rfl]
  exact IntMath.subFlags_exact _ _ _

theorem Cpu.negc_column (inst : UInt16) (c : Cpu ω) :
    (c.reg (rm inst)).toNat + ((c.instBinaryNegcGenGen inst).reg (rn inst)).toNat + c.tFlag.toNat =
      0 + 2 ^ 32 * (c.instBinaryNegcGenGen inst).tFlag.toNat := by
  have hlt := rn_lt inst
  have hx := (c.reg (rm inst)).toNat_lt
  have hneg : (-c.reg (rm inst)).toNat = (2 ^ 32 - (c.reg (rm inst)).toNat) % 2 ^ 32 :=
    UInt32.toNat_neg _
  have hres : ((c.instBinaryNegcGenGen inst).reg (rn inst)).toNat =
      (2 ^ 32 - (c.sr &&& srTMask).toNat + (-c.reg (rm inst)).toNat) % 2 ^ 32 := by
    rw [instBinaryNegcGenGen, write_reg, if_pos rfl, UInt32.toNat_sub]
  have hsr : (c.instBinaryNegcGenGen inst).sr &&& srTMask = (c.sr &&& srTMask) |||
      ((if -c.reg (rm inst) != 0 || -c.reg (rm inst) - (c.sr &&& srTMask) > -c.reg (rm inst) then
        srTMask else 0) &&& srTMask) := by
    rw [← or_and]
    exact congrArg (· &&& srTMask) (assign_sr c hlt)
  rw [hres, hneg, toNat_tFlag]
  obtain hzero | hone := and_bit c.sr (show srTMask.toNat = 2 ^ 0 from rfl)
  · -- without a borrow T is set unless the operand is zero
    have hnext : (c.instBinaryNegcGenGen inst).tFlag = decide (c.reg (rm inst) ≠ 0) := by
      apply tFlag_eq_of_and
      rw [hsr, hzero]
      by_cases hval : c.reg (rm inst) = 0
      · simp [hval]
      · simp [hval]
    rw [hnext, hzero]
    by_cases hval : c.reg (rm inst) = 0
    · simp [hval]
    · have hpos : (c.reg (rm inst)).toNat ≠ 0 := fun h => hval (UInt32.toNat_inj.mp h)
      rw [decide_eq_true hval]
      simp
      omega
  · have hnext : (c.instBinaryNegcGenGen inst).tFlag = true := by
      apply tFlag_eq_of_and
      rw [hsr, hone]
      split <;> rfl
    have hmask : srTMask.toNat = 1 := rfl
    rw [hnext, hone, hmask, Bool.toNat_true]
    omega

end

/-- What one instruction of a chain works on: Rm, Rn and the new Rn. -/
structure Column where
  src : UInt32
  dst : UInt32
  res : UInt32

/-- A chain of instructions with the function `g`: each finds T as the one before left it, whatever
happened to the registers in between. -/
inductive Chain (g : UInt16 → Cpu ω → Cpu ω) : Cpu ω → List Column → Cpu ω → Prop
  | nil {c : Cpu ω} : Chain g c [] c
  | cons {c₀ c c' : Cpu ω} {columns : List Column} (inst : UInt16) (carry : c.tFlag = c₀.tFlag)
    (rest : Chain g (g inst c) columns c') :
    Chain g c₀ (⟨c.reg (rm inst), c.reg (Cpu.rn inst), (g inst c).reg (Cpu.rn inst)⟩ :: columns) c'

def wordsValue (words : List UInt32) : Nat := ofDigits (2 ^ 32) (words.map UInt32.toNat)

theorem wordsValue_lt (words : List UInt32) : wordsValue words < 2 ^ (32 * words.length) := by
  have hlt := ofDigits_lt_base_pow_length (b := 2 ^ 32) (l := words.map UInt32.toNat) (by decide)
    (by simpa using fun x _ => x.toNat_lt)
  rwa [length_map, ← Nat.pow_mul] at hlt

section
variable {g : UInt16 → Cpu ω → Cpu ω} {c c' : Cpu ω} {columns : List Column}

theorem Chain.adds (place : Column → UInt32 × UInt32 × UInt32)
    (column : ∀ inst (c : Cpu ω),
      let k := place ⟨c.reg (rm inst), c.reg (Cpu.rn inst), (g inst c).reg (Cpu.rn inst)⟩
      k.1.toNat + k.2.1.toNat + c.tFlag.toNat = k.2.2.toNat + 2 ^ 32 * (g inst c).tFlag.toNat)
    (h : Chain g c columns c') :
    wordsValue (columns.map fun k => (place k).1) + wordsValue (columns.map fun k => (place k).2.1) +
        c.tFlag.toNat =
      wordsValue (columns.map fun k => (place k).2.2) +
        2 ^ (32 * columns.length) * c'.tFlag.toNat := by
  have hadds : CarryChain.Adds (2 ^ 32) c.tFlag.toNat
      (columns.map fun k => ((place k).1.toNat, (place k).2.1.toNat, (place k).2.2.toNat))
      c'.tFlag.toNat := by
    induction h with
    | nil => exact .nil
    | @cons c₀ c _ _ inst carry _ ih =>
      rw [← carry]
      exact .cons (column inst c) ih
  have hvalue := hadds.ofDigits_eq
  simp only [map_map, length_map, ← Nat.pow_mul] at hvalue
  simp only [wordsValue, map_map]
  exact hvalue

theorem Chain.addc (h : Chain Cpu.instBinaryAddcGenGen c columns c') :
    wordsValue (columns.map Column.src) + wordsValue (columns.map Column.dst) + c.tFlag.toNat =
      wordsValue (columns.map Column.res) + 2 ^ (32 * columns.length) * c'.tFlag.toNat :=
  h.adds (fun k => (k.src, k.dst, k.res)) Cpu.addc_column

theorem Chain.subc (h : Chain Cpu.instBinarySubcGenGen c columns c') :
    wordsValue (columns.map Column.src) + wordsValue (columns.map Column.res) + c.tFlag.toNat =
      wordsValue (columns.map Column.dst) + 2 ^ (32 * columns.length) * c'.tFlag.toNat :=
  h.adds (fun k => (k.src, k.res, k.dst)) Cpu.subc_column

theorem Chain.negc (h : Chain Cpu.instBinaryNegcGenGen c columns c') :
    wordsValue (columns.map Column.src) + wordsValue (columns.map Column.res) + c.tFlag.toNat =
      wordsValue (columns.map fun _ => 0) + 2 ^ (32 * columns.length) * c'.tFlag.toNat :=
  h.adds (fun k => (k.src, k.res, 0)) Cpu.negc_column

end

theorem wordsValue_zeros (columns : List Column) : wordsValue (columns.map fun _ => 0) = 0 := by
  induction columns with
  | nil => rfl
  | cons k columns ih =>
    rw [wordsValue] at ih ⊢
    simp only [map_cons, ofDigits_cons, ih]
    rfl

/-- From T = 0, chains of ADDC, SUBC and NEGC add, subtract and negate numbers of any length. -/
theorem chains_calculate {c c' : Cpu ω} {columns : List Column} (start : c.tFlag = false) :
    (Chain Cpu.instBinaryAddcGenGen c columns c' →
      let sum := wordsValue (columns.map Column.src) + wordsValue (columns.map Column.dst)
      wordsValue (columns.map Column.res) = sum % 2 ^ (32 * columns.length) ∧
        c'.tFlag.toNat = sum / 2 ^ (32 * columns.length)) ∧
    (Chain Cpu.instBinarySubcGenGen c columns c' →
      (wordsValue (columns.map Column.res) : Int) =
        (wordsValue (columns.map Column.dst) - wordsValue (columns.map Column.src) : Int) %
          2 ^ (32 * columns.length) ∧
      (c'.tFlag = true ↔ wordsValue (columns.map Column.dst) < wordsValue (columns.map Column.src))) ∧
    (Chain Cpu.instBinaryNegcGenGen c columns c' →
      (wordsValue (columns.map Column.res) : Int) =
        -(wordsValue (columns.map Column.src) : Int) % 2 ^ (32 * columns.length)) := by
  have hres := wordsValue_lt (columns.map Column.res)
  have hsrc := wordsValue_lt (columns.map Column.src)
  rw [length_map] at hres hsrc
  refine ⟨?_, ?_, ?_⟩
  · intro h
    have hsum := h.addc
    rw [start, Bool.toNat_false, add_zero] at hsum
    refine ⟨?_, ?_⟩
    · rw [hsum, add_mul_mod_self_left, mod_eq_of_lt hres]
    · rw [hsum, add_mul_div_left _ _ (by positivity), div_eq_of_lt hres, zero_add]
  · intro h
    have hsum := h.subc
    rw [start, Bool.toNat_false, add_zero] at hsum
    refine ⟨?_, ?_⟩
    · exact_mod_cast CarryChain.eq_sub_emod hsum hres
    · cases ht : c'.tFlag
      · rw [ht] at hsum
        simp at hsum ⊢
        omega
      · rw [ht] at hsum
        simp at hsum ⊢
        omega
  · intro h
    have hsum := h.negc
    rw [start, Bool.toNat_false, add_zero, wordsValue_zeros] at hsum
    have hdiff := CarryChain.eq_sub_emod hsum hres
    rw [cast_zero, Int.zero_sub] at hdiff
    exact_mod_cast hdiff

/-- All ones and a carry: the largest number of two words and one more. -/
theorem chains_calculate_carry :
    ∃ c' : Cpu Unit, Chain Cpu.instBinaryAddcGenGen
        (resetCpu fun i => if i = 0 then 0xffffffff else 1)
        [⟨0xffffffff, 1, 0⟩, ⟨0xffffffff, 0, 0⟩] c' ∧
      c'.tFlag.toNat =
        (wordsValue [0xffffffff, 0xffffffff] + wordsValue [1, 0]) / 2 ^ (32 * 2) := by
  have hchain : Chain Cpu.instBinaryAddcGenGen
      (resetCpu fun i => if i = 0 then 0xffffffff else 1) _ _ :=
    .cons 0x310e rfl (.cons 0x310e rfl .nil)
  exact ⟨_, hchain, ((chains_calculate rfl).1 hchain).2⟩

end Sh4

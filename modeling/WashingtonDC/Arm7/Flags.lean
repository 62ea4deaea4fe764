import WashingtonDC.Arm7.Steps

/-!
# Flags and conditions of the ARM7 core

What the conditions of later instructions decide after a comparison, a subtraction or an addition
that sets the flags. An instruction with R15 as its destination restores a saved status register
instead of setting the flags; it is not described here.
-/
namespace Arm7

open UInt32 Bool Option

variable {σ : Type}

theorem bit31_iff (x : UInt32) : bit x 31 = true ↔ 2 ^ 31 ≤ x.toNat := by
  have hlt := x.toNat_lt
  rw [show (31 : UInt32) = UInt32.ofNat 31 from rfl, bit_eq_testBit x (by decide),
    Nat.testBit_eq_decide_div_mod_eq, decide_eq_true_iff]
  omega

/-! ## The status register -/

def flagsOf (cpsr : UInt32) : Flags :=
  ⟨cpsr &&& nMask != 0, cpsr &&& cMask != 0, cpsr &&& zMask != 0, cpsr &&& vMask != 0⟩

theorem flagsOf_replace (cpsr : UInt32) (flags : Flags) :
    flagsOf ((cpsr &&& ~~~(flagMask false)) ||| flagBits false flags) = flags := by
  have hread (m : UInt32) (within : m &&& flagMask false = m) :
      ((cpsr &&& ~~~(flagMask false)) ||| flagBits false flags) &&& m =
        flagBits false flags &&& m :=
    WordMask.replace_and_of_subset _ _ within
  rw [flagsOf, hread nMask (by decide), hread cMask (by decide), hread zMask (by decide),
    hread vMask (by decide)]
  obtain ⟨n, c, z, v⟩ := flags
  cases n <;> cases c <;> cases z <;> cases v <;> rfl

theorem modeOf_replace (cpsr : UInt32) (flags : Flags) :
    modeOf ((cpsr &&& ~~~(flagMask false)) ||| flagBits false flags) = modeOf cpsr := by
  have hbits : flagBits false flags &&& mMask = 0 := by
    obtain ⟨n, c, z, v⟩ := flags
    cases n <;> cases c <;> cases z <;> cases v <;> rfl
  have hmask : flagMask false &&& mMask = 0 := by decide
  simp only [modeOf, WordMask.replace_and_of_disjoint _ _ hmask hbits]

section
variable {op : DataOp} {inst a b : UInt32} {cOut : Bool} {c : Core σ}

theorem dataOperands_mode (operands : dataOperands inst c = some (a, b, cOut)) :
    ∃ mode, modeOf c.cpsr = some mode := by
  obtain ⟨v, hget, -⟩ := bind_eq_some_iff.mp operands
  obtain ⟨mode, hmode, -⟩ := Core.exists_mode hget
  exact ⟨mode, hmode⟩

theorem instData_flags (arith : op.kind.isLogic = false) (s : bit inst 20 = true)
    (rd : regField inst 12 ≠ 15) (operands : dataOperands inst c = some (a, b, cOut)) :
    ∃ c', instData op inst c = some c' ∧ flagsOf c'.cpsr = (op.eval a b cOut).2 := by
  obtain ⟨mode, hmode⟩ := dataOperands_mode operands
  let cpsr' := (c.cpsr &&& ~~~(flagMask false)) ||| flagBits false (op.eval a b cOut).2
  have hcpsr : (c.write regCpsr cpsr').cpsr = cpsr' := by simp [Core.cpsr, Core.write_reg]
  have hmode' : modeOf (c.write regCpsr cpsr').cpsr = some mode := by
    rw [hcpsr, modeOf_replace, hmode]
  have hstatus : dataStatus op.kind inst (op.eval a b cOut).2 c = some (c.write regCpsr cpsr') := by
    simp [dataStatus, s, rd, arith, cpsr']
  have hresult : ∃ c', c'.cpsr = cpsr' ∧
      dataResult op.kind inst (op.eval a b cOut).1 (c.write regCpsr cpsr') = some c' := by
    rw [dataResult]
    split
    · rw [Core.set_of_mode hmode', map_some]
      refine ⟨_, ?_, rfl⟩
      rw [Core.nextInst_cpsr, Core.write_genReg_cpsr _ _ (regField_lt _ _), hcpsr]
    · exact ⟨_, by rw [Core.nextInst_cpsr, hcpsr], rfl⟩
  obtain ⟨c', hflags, hc'⟩ := hresult
  refine ⟨c', ?_, by rw [hflags, flagsOf_replace]⟩
  exact bind_eq_some_iff.mpr ⟨_, operands, bind_eq_some_iff.mpr ⟨_, hstatus, hc'⟩⟩

end

/-! ## Comparisons -/

/-- The conditions decide how `a` compares with `b`. -/
structure Decides (cpsr a b : UInt32) : Prop where
  eq : Cond.eq.holds cpsr = true ↔ a = b
  ne : Cond.ne.holds cpsr = true ↔ a ≠ b
  cs : Cond.cs.holds cpsr = true ↔ b ≤ a
  cc : Cond.cc.holds cpsr = true ↔ a < b
  hi : Cond.hi.holds cpsr = true ↔ b < a
  ls : Cond.ls.holds cpsr = true ↔ a ≤ b
  ge : Cond.ge.holds cpsr = true ↔ b.toInt32 ≤ a.toInt32
  lt : Cond.lt.holds cpsr = true ↔ a.toInt32 < b.toInt32
  gt : Cond.gt.holds cpsr = true ↔ b.toInt32 < a.toInt32
  le : Cond.le.holds cpsr = true ↔ a.toInt32 ≤ b.toInt32

section
variable {cpsr a b : UInt32}

theorem toInt32_toInt_inj : a.toInt32.toInt = b.toInt32.toInt ↔ a = b := by
  rw [Int32.toInt_inj]
  constructor
  · intro h
    simpa using congrArg Int32.toUInt32 h
  · intro h
    rw [h]

theorem Decides.of_flags (zero : (flagsOf cpsr).z = true ↔ a = b)
    (carry : (flagsOf cpsr).c = true ↔ b ≤ a)
    (sign : (flagsOf cpsr).n = (flagsOf cpsr).v ↔ b.toInt32 ≤ a.toInt32) : Decides cpsr a b := by
  have hzero : Cond.eq.holds cpsr = true ↔ a = b := zero
  have hcarry : Cond.cs.holds cpsr = true ↔ b ≤ a := carry
  have hsign : Cond.ge.holds cpsr = true ↔ b.toInt32 ≤ a.toInt32 := beq_iff_eq.trans sign
  have hnot (x : Bool) {p : Prop} (h : x = true ↔ p) : (!x) = true ↔ ¬p := by
    rw [not_eq_true', ← not_eq_true, h]
  have hnonzero : Cond.ne.holds cpsr = true ↔ a ≠ b := hnot _ hzero
  have hgt : Cond.gt.holds cpsr = true ↔ b.toInt32 < a.toInt32 := by
    have hand : Cond.gt.holds cpsr = true ↔ a ≠ b ∧ b.toInt32 ≤ a.toInt32 := by
      rw [← hnonzero, ← hsign, ← and_eq_true]
      rfl
    rw [hand, ne_eq, ← toInt32_toInt_inj, Int32.le_iff_toInt_le, Int32.lt_iff_toInt_lt]
    omega
  constructor
  case eq => exact hzero
  case ne => exact hnonzero
  case cs => exact hcarry
  case cc => exact (hnot _ hcarry).trans UInt32.not_le
  case hi =>
    have hand : Cond.hi.holds cpsr = true ↔ a ≠ b ∧ b ≤ a := by
      rw [← hnonzero, ← hcarry, ← and_eq_true]
      rfl
    rw [hand, ne_eq, ← UInt32.toNat_inj, le_iff_toNat_le, lt_iff_toNat_lt]
    omega
  case ls =>
    have hor : Cond.ls.holds cpsr = true ↔ ¬b ≤ a ∨ a = b := by
      rw [← hnot _ hcarry, ← hzero, ← or_eq_true]
      rfl
    rw [hor, ← UInt32.toNat_inj, le_iff_toNat_le, le_iff_toNat_le]
    omega
  case ge => exact hsign
  case lt => exact (hnot _ hsign).trans Int32.not_le
  case gt => exact hgt
  case le => exact (hnot _ hgt).trans Int32.not_lt

end

def differenceFlags (a b : UInt32) : Flags := (DataOp.cmp.eval a b false).2

theorem differenceFlags_eq (a b : UInt32) : differenceFlags a b =
    let res := a.toInt32.toInt - b.toInt32.toInt
    ⟨bit (a - b) 31, decide (a.toNat < b.toNat) != true, a - b == 0,
      decide (res > 2147483647 ∨ res < -2147483648)⟩ := by
  rw [differenceFlags, DataOp.eval, DataOp.eval.arith, IntMath.subFlags_false]

theorem sign_difference (a b : UInt32) :
    (differenceFlags a b).n = (differenceFlags a b).v ↔ b.toInt32 ≤ a.toInt32 := by
  have ha := a.toNat_lt
  have hb := b.toNat_lt
  have hsub := UInt32.toNat_sub a b
  have hsa := IntMath.toInt32_toInt a
  have hsb := IntMath.toInt32_toInt b
  rw [Bool.eq_iff_iff, Int32.le_iff_toInt_le]
  simp only [differenceFlags_eq, bit31_iff, decide_eq_true_iff]
  omega

theorem decides_of_difference {cpsr a b : UInt32} (flags : flagsOf cpsr = differenceFlags a b) :
    Decides cpsr a b := by
  apply Decides.of_flags
  · rw [flags, differenceFlags_eq, beq_iff_eq, sub_eq_zero]
  · rw [flags, differenceFlags_eq, bne_true, not_eq_true',
      decide_eq_false_iff_not, le_iff_toNat_le]
    omega
  · rw [flags]
    exact sign_difference a b

/-! ## Sums -/

/-- The flags are those of the sums as 33-bit and as signed numbers. -/
structure SumFlags (cpsr a b : UInt32) : Prop where
  n : Cond.mi.holds cpsr = true ↔ 2 ^ 31 ≤ (a.toNat + b.toNat) % 2 ^ 32
  z : Cond.eq.holds cpsr = true ↔ (a.toNat + b.toNat) % 2 ^ 32 = 0
  c : Cond.cs.holds cpsr = true ↔ 2 ^ 32 ≤ a.toNat + b.toNat
  v : Cond.vs.holds cpsr = true ↔
    ¬(-2 ^ 31 ≤ a.toInt32.toInt + b.toInt32.toInt ∧ a.toInt32.toInt + b.toInt32.toInt < 2 ^ 31)

theorem sumFlags_of_cmn {cpsr a b : UInt32} {cOut : Bool}
    (flags : flagsOf cpsr = (DataOp.cmn.eval a b cOut).2) : SumFlags cpsr a b := by
  rw [DataOp.eval, DataOp.eval.arith, IntMath.addFlags_false] at flags
  have hn : Cond.mi.holds cpsr = bit (a + b) 31 := congrArg Flags.n flags
  have hz : Cond.eq.holds cpsr = (a + b == 0) := congrArg Flags.z flags
  have hc : Cond.cs.holds cpsr = (decide _ != false) := congrArg Flags.c flags
  have hv : Cond.vs.holds cpsr = decide _ := congrArg Flags.v flags
  constructor
  · rw [hn, bit31_iff, UInt32.toNat_add]
  · rw [hz, beq_iff_eq, ← UInt32.toNat_inj, UInt32.toNat_add, UInt32.toNat_zero]
  · rw [hc, bne_false, decide_eq_true_iff]
  · rw [hv, decide_eq_true_iff]
    have ha := a.toInt32.toInt_lt
    have ha' := a.toInt32.le_toInt
    have hb' := b.toInt32.le_toInt
    omega

/-- After CMP, SUBS and RSBS the conditions compare the operands; CMN sets the flags of the sum. -/
theorem flags_decide (inst a b : UInt32) (cOut : Bool) (c : Core σ) (s : bit inst 20 = true)
    (rd : regField inst 12 ≠ 15) (operands : dataOperands inst c = some (a, b, cOut)) :
    (∃ c', instData .cmp inst c = some c' ∧ Decides c'.cpsr a b) ∧
      (∃ c', instData .sub inst c = some c' ∧ Decides c'.cpsr a b) ∧
      (∃ c', instData .rsb inst c = some c' ∧ Decides c'.cpsr b a) ∧
      ∃ c', instData .cmn inst c = some c' ∧ SumFlags c'.cpsr a b := by
  obtain ⟨c₁, hcmp, hflags₁⟩ := @instData_flags σ .cmp _ _ _ _ _ rfl s rd operands
  obtain ⟨c₂, hsub, hflags₂⟩ := @instData_flags σ .sub _ _ _ _ _ rfl s rd operands
  obtain ⟨c₃, hrsb, hflags₃⟩ := @instData_flags σ .rsb _ _ _ _ _ rfl s rd operands
  obtain ⟨c₄, hcmn, hflags₄⟩ := @instData_flags σ .cmn _ _ _ _ _ rfl s rd operands
  exact ⟨⟨c₁, hcmp, decides_of_difference hflags₁⟩, ⟨c₂, hsub, decides_of_difference hflags₂⟩,
    ⟨c₃, hrsb, decides_of_difference hflags₃⟩, ⟨c₄, hcmn, sumFlags_of_cmn hflags₄⟩⟩

/-- Comparing the least signed number with one. -/
theorem flags_decide_least :
    let c := (bootCpu (fun i => if i = 0 then 0x80000000 else 1) []).toCore
    dataOperands 0xe1500001 c = some (0x80000000, 1, false) ∧
      ∃ c', instData .cmp 0xe1500001 c = some c' ∧ Decides c'.cpsr 0x80000000 1 :=
  ⟨rfl, (flags_decide _ _ _ false _ rfl (by decide) rfl).1⟩

end Arm7

import WashingtonDC.Sh4.Interp
import WashingtonDC.Sh4.Intc

/-!
# What SH4 instructions do to the control state

Every instruction function takes a delayed branch, or it is a sequence of primitive steps that
leave the delayed branch alone. The case split over the instruction functions is made here, once.
-/
namespace Sh4

open Relation Lockstep Cpu Bool Option

variable {ω : Type}

/-! ## Primitive steps -/

/-- Neither the interrupt controller nor what it depends on is touched. -/
structure Calm (c c' : Cpu ω) : Prop where
  delayedBranch : c'.delayedBranch = c.delayedBranch
  delayedBranchAddr : c'.delayedBranchAddr = c.delayedBranchAddr
  intc : c'.intc = c.intc
  refreshScheduled : c'.refreshScheduled = c.refreshScheduled
  refreshQueued : c'.refreshQueued = c.refreshQueued
  refreshRunning : c'.refreshRunning = c.refreshRunning
  entered : c'.entered = c.entered
  inputs : SameInputs c.reg c'.reg

/-- The value agrees with the status register in the bits that matter to the interrupt controller. -/
def Cpu.sameIntcBits (c : Cpu ω) (v : UInt32) : Bool := c.sr &&& intcSrBits == v &&& intcSrBits

theorem Cpu.SetsSr.sameInputs {c c' : Cpu ω} {v : UInt32} (set : SetsSr c v c')
    (same : c.sr &&& intcSrBits = v &&& intcSrBits) : SameInputs c.reg c'.reg := by
  refine ⟨by rw [set.sr]; exact same.symm, fun i lo hi => ?_⟩
  exact set.reg_high (by simp only [regIcr] at lo; omega) (by simp only [regIcr, regSr] at *; omega)

/-- The steps of an instruction function. With `loud = false` the steps that change what the
interrupt controller depends on, other than the IRL lines, are left out. -/
inductive Prim (loud : Bool) : Cpu ω → Cpu ω → Prop
  | calm {c c' : Cpu ω} (calm : Calm c c') : Prim loud c c'
  | irl {c c' : Cpu ω} (val : UInt32) (set : c.setIrlInterrupt val = some c') : Prim loud c c'
  | setSr {c c' : Cpu ω} (v : UInt32) (isLoud : c.sameIntcBits v = true ∨ loud = true)
      (set : SetsSr c v c') : Prim loud c c'
  | intcReg {c c' : Cpu ω} (isLoud : loud = true) (i : Nat) (v : UInt32)
      (set : (c.write i v).refreshIntcDeferred = some c') : Prim loud c c'
  | excp {c c' : Cpu ω} (isLoud : loud = true) (code : UInt32)
      (set : c.setException code = some c') : Prim loud c c'

/-- A delayed branch has been taken. -/
structure Branches (c : Cpu ω) (addr : UInt32) (c' : Cpu ω) : Prop where
  taken : c'.delayedBranch = true
  addr : c'.delayedBranchAddr = addr
  pc : c'.pc = c.pc
  intc : c'.intc = c.intc
  refreshRunning : c'.refreshRunning = c.refreshRunning
  entered : c'.entered = c.entered
  defers : Defers c c'
  inputs : SameInputs c.reg c'.reg ∨ c'.refreshScheduled = true

theorem Cpu.rn_lt (inst : UInt16) : rn inst < 16 := by
  unfold rn
  rw [UInt16.toNat_and]
  exact Nat.lt_succ_of_le Nat.and_le_right

theorem isControlReg_of_lt {i : Nat} (lt : i < 16) : isControlReg i = false := by
  simp only [isControlReg, or_eq_false_iff, beq_eq_false_iff_ne, and_eq_false_iff,
    decide_eq_false_iff_not, regSr, regFpscr, regPc, regIcr]
  omega

theorem isControlReg_rn (inst : UInt16) : isControlReg (Cpu.rn inst) = false :=
  isControlReg_of_lt (rn_lt inst)

theorem merge_and_of_disjoint {mask m : UInt32} (old val : UInt32) (apart : mask &&& m = 0) :
    merge mask old val &&& m = old &&& m := by
  have hval : val &&& mask &&& m = 0 := by rw [UInt32.and_assoc, apart, UInt32.and_zero]
  rw [merge, WordMask.set_and_of_disjoint _ hval, WordMask.clear_and_of_disjoint _ apart]

namespace Calm

variable {c : Cpu ω}

theorem refl (c : Cpu ω) : Calm c c := ⟨rfl, rfl, rfl, rfl, rfl, rfl, rfl, .refl _⟩

theorem trans {c' c'' : Cpu ω} (first : Calm c c') (second : Calm c' c'') : Calm c c'' :=
  ⟨second.1.trans first.1, second.2.trans first.2, second.3.trans first.3,
    second.4.trans first.4, second.5.trans first.5, second.6.trans first.6,
    second.7.trans first.7, first.8.trans second.8⟩

theorem write (c : Cpu ω) {i : Nat} (v : UInt32) (notSr : i ≠ regSr)
    (notIntc : i < regIcr ∨ regIpra + 3 < i) : Calm c (c.write i v) := by
  refine ⟨rfl, rfl, rfl, rfl, rfl, rfl, rfl, ?_, ?_⟩
  · rw [write_reg, if_neg notSr.symm]
  · intro j lo hi
    rw [write_reg, if_neg (by omega)]

theorem writeGen (c : Cpu ω) (inst : UInt16) (v : UInt32) : Calm c (c.write (Cpu.rn inst) v) := by
  have hlt := rn_lt inst
  exact write c v (by simp only [regSr]; omega) (.inl (by simp only [regIcr]; omega))

theorem setFlags (c : Cpu ω) (v : UInt32) :
    Calm c (c.write regSr (merge (~~~srSystemBits) c.sr v)) := by
  refine ⟨rfl, rfl, rfl, rfl, rfl, rfl, rfl, ?_, ?_⟩
  · rw [write_reg, if_pos rfl, merge_and_of_disjoint _ _ (by decide)]
    rfl
  · intro j lo hi
    rw [write_reg, if_neg (by simp only [regIcr, regIpra, regSr] at *; omega)]

theorem writeFpscr (c : Cpu ω) (v : UInt32) : Calm c (c.write regFpscr v) :=
  write c v (by decide) (.inl (by decide))

theorem fpuBankSwitch (c : Cpu ω) : Calm c c.fpuBankSwitch := by
  have hhigh : ∀ i, 56 ≤ i → c.fpuBankSwitch.reg i = c.reg i := by
    intro i hi
    simp only [Cpu.fpuBankSwitch]
    rw [if_neg (by omega), if_neg (by omega)]
  refine ⟨rfl, rfl, rfl, rfl, rfl, rfl, rfl, ?_, ?_⟩
  · rw [hhigh _ (by decide)]
  · intro i lo hi
    exact hhigh i (by simp only [regIcr] at lo; omega)

theorem setFpscr (c : Cpu ω) (v : UInt32) : Calm c (c.setFpscr v) := by
  unfold Cpu.setFpscr fpuBankSwitchMaybe
  split
  · exact (fpuBankSwitch c).trans (writeFpscr _ v)
  · exact writeFpscr c v

theorem advance (c : Cpu ω) (inst : UInt16) : Calm c (c.advance inst) := by
  unfold Cpu.advance
  split
  · exact write c _ (by decide) (.inl (by decide))
  · exact refl c

end Calm

/-! ## Effects -/

namespace Effect

/-- The effect leaves the status register and those of the interrupt controller alone. -/
def quiet : Effect → Bool
  | .icr _ | .ipr _ _ | .invalid => false
  | _ => true

end Effect

theorem isControlReg_false {i : Nat} (h : isControlReg i = false) :
    i ≠ regSr ∧ (i < regIcr ∨ regIpra + 3 < i) := by
  simp only [isControlReg, or_eq_false_iff, beq_eq_false_iff_ne, and_eq_false_iff,
    decide_eq_false_iff_not] at h
  exact ⟨h.1.1.1, by omega⟩

section
variable {c c' : Cpu ω} {loud : Bool}

theorem Prim.apply {e : Effect} (allowed : e.quiet = true ∨ loud = true)
    (h : c.apply e = some c') : Prim loud c c' := by
  cases e with
  | write i plain val =>
    cases h
    obtain ⟨hsr, hintc⟩ := isControlReg_false plain
    exact .calm (Calm.write c val hsr hintc)
  | setFlags val =>
    cases h
    exact .calm (Calm.setFlags c val)
  | setFpscrBits val =>
    cases h
    exact .calm (Calm.writeFpscr c _)
  | icr val => exact .intcReg (allowed.resolve_left nofun) regIcr val h
  | ipr n val =>
    have hloud := allowed.resolve_left nofun
    match n with
    | 0 | 1 | 2 | 3 => exact .intcReg hloud _ val h
  | irl val => exact .irl val h
  | invalid => exact .excp (allowed.resolve_left nofun) _ h

theorem prims_applyAll {effects : List Effect}
    (allowed : effects.all Effect.quiet = true ∨ loud = true) (h : c.applyAll effects = some c') :
    ReflTransGen (Prim loud) c c' := by
  rw [List.all_eq_true] at allowed
  exact foldlM_invariant (fun hmem he prims => prims.tail
    (Prim.apply (allowed.imp_left fun quiet => quiet _ hmem) he)) h .refl

end

/-! ## Instruction functions -/

/-- The target of the delayed branch that the function takes, if it takes one. -/
def Control.target (k : Control) (inst : UInt16) (c : Cpu ω) : Option UInt32 :=
  match k with
  | .rts => some (c.reg regPr)
  | .rte => some (c.reg regSpc)
  | .unaryBrafGen | .unaryBsrfGen => some (c.pc + c.reg (Cpu.rn inst) + 4)
  | .unaryBfsDisp => if !c.tFlag then some (c.pc + disp8 inst + 4) else none
  | .unaryBtsDisp => if c.tFlag then some (c.pc + disp8 inst + 4) else none
  | .unaryBraDisp | .unaryBsrDisp => some (c.pc + disp12 inst + 4)
  | .unaryJmpIndgen | .unaryJsrIndgen => some (c.reg (Cpu.rn inst))
  | _ => none

def OpFunc.target (f : OpFunc) (inst : UInt16) (c : Cpu ω) : Option UInt32 :=
  f.control.bind fun k => k.target inst c

/-- The function changes neither `SR.BL` or `SR.IMASK` nor the registers of the interrupt
controller. -/
def Control.quiet (k : Control) (env : Env ω) (inst : UInt16) (c : Cpu ω) : Bool :=
  match k with
  | .rte | .invalid => false
  | .binaryLdcGenSr => c.sameIntcBits (c.reg (Cpu.rn inst))
  | .binaryLdclIndgenincSr =>
    ((env.read32 (c.reg (Cpu.rn inst)) c).all fun r => r.2.1.all Effect.quiet) &&
      (c.memoryMapRead32 env (c.reg (Cpu.rn inst))).all fun r => r.2.sameIntcBits r.1
  | .sleep => c.execState != .norm || c.sr &&& srMdMask != 0
  | .binaryLdslIndgenincFpscr =>
    (env.read32 (c.reg (Cpu.rn inst)) c).all fun r => r.2.1.all Effect.quiet
  | _ => true

def OpFunc.quiet (f : OpFunc) (env : Env ω) (inst : UInt16) (c : Cpu ω) : Bool :=
  match f.control with
  | some k => k.quiet env inst c
  | none => (env.plain f inst c).all fun r => r.1.all Effect.quiet

section
variable {env : Env ω} {inst : UInt16} {c c' : Cpu ω}

theorem Branches.of_calm {c1 : Cpu ω} (calm : Calm c c1) (pc : c1.pc = c.pc) (addr : UInt32) :
    Branches c addr (c1.branchTo addr) :=
  ⟨rfl, rfl, pc, calm.intc, calm.refreshRunning, calm.entered,
    .kept calm.refreshScheduled calm.refreshQueued, .inl calm.inputs⟩

theorem Branches.branchTo (c : Cpu ω) (addr : UInt32) : Branches c addr (c.branchTo addr) :=
  .of_calm (Calm.refl c) rfl addr

theorem Branches.savePr (c : Cpu ω) (addr : UInt32) :
    Branches c addr (c.savePr.branchTo addr) := by
  refine .of_calm (Calm.write c _ (by decide) (.inl (by decide))) ?_ addr
  simp [Cpu.pc, write_reg]

theorem Branches.rte (h : c.instRte = some c') : Branches c (c.reg regSpc) c' := by
  have set := setSr_some h
  refine ⟨set.frame.delayedBranch, set.frame.delayedBranchAddr,
    set.reg_high (by decide) (by decide), set.frame.intc, set.frame.refreshRunning,
    set.frame.entered, ?_, ?_⟩
  · exact set.defers.after rfl rfl
  · by_cases hsame : c.sr &&& intcSrBits = c.reg regSsr &&& intcSrBits
    · exact .inl (set.sameInputs hsame)
    · exact .inr (set.changed hsame)

theorem Calm.world (c : Cpu ω) (world : ω) : Calm c { c with world } :=
  ⟨rfl, rfl, rfl, rfl, rfl, rfl, rfl, .refl _⟩

theorem Cpu.instUnaryTrapaDisp_some (h : c.instUnaryTrapaDisp env = some c') : c = c' := by
  unfold instUnaryTrapaDisp at h
  split at h
  · exact some_inj.mp h
  · cases h

theorem prims_memoryMapRead32 {loud : Bool} {addr val : UInt32}
    (allowed : ((env.read32 addr c).all fun r => r.2.1.all Effect.quiet) = true ∨ loud = true)
    (h : c.memoryMapRead32 env addr = some (val, c')) : ReflTransGen (Prim loud) c c' := by
  obtain ⟨⟨val', effects, world⟩, hread, h⟩ := bind_eq_some_iff.mp h
  obtain ⟨c1, happly, h⟩ := bind_eq_some_iff.mp h
  cases h
  rw [hread] at allowed
  exact (prims_applyAll allowed happly).tail (.calm (Calm.world c1 world))

/-- A relation that holds for the steps of an instruction function other than reads. -/
structure InstSteps (loud : Bool) (S : Cpu ω → Cpu ω → Prop) : Prop where
  calm : ∀ {c c'}, Calm c c' → S c c'
  setSr : ∀ {c c' v}, c.sameIntcBits v = true ∨ loud = true → SetsSr c v c' → S c c'
  excp : ∀ {c c' code}, loud = true → c.setException code = some c' → S c c'

variable {S : Cpu ω → Cpu ω → Prop}

theorem InstSteps.instSleep {loud : Bool} (steps : InstSteps loud S)
    (allowed : (c.execState != .norm || c.sr &&& srMdMask != 0) = true ∨ loud = true)
    (h : c.instSleep = some c') : ReflTransGen S c c' := by
  unfold Cpu.instSleep at h
  split at h
  · rename_i hnorm
    split at h
    · rename_i hmd
      have hloud : loud = true := allowed.resolve_left (by simp [hnorm, hmd])
      exact .single (steps.excp hloud h)
    · cases h
      exact .single (steps.calm ⟨rfl, rfl, rfl, rfl, rfl, rfl, rfl, .refl _⟩)
  · cases h
    exact .refl

theorem Calm.branch (c : Cpu ω) (p : Prop) [Decidable p] (v : UInt32) :
    Calm c (if p then c.write regPc v else c) := by
  split
  · exact Calm.write c _ (by decide) (.inl (by decide))
  · exact Calm.refl c

theorem quiet_or_loud (q : Bool) : q = true ∨ (!q) = true := by
  cases q <;> decide

/-- The increment of the address register leaves the status register alone. -/
theorem ldcl_quiet_or_loud {val v : UInt32} {c1 : Cpu ω}
    (hread : c.memoryMapRead32 env (c.reg (Cpu.rn inst)) = some (val, c1)) :
    (c1.write (Cpu.rn inst) v).sameIntcBits val = true ∨
      (!Control.quiet .binaryLdclIndgenincSr env inst c) = true := by
  have hsr : (c1.write (Cpu.rn inst) v).sr = c1.sr := by
    have hlt := rn_lt inst
    rw [sr, write_reg, if_neg (by simp only [regSr]; omega)]
    rfl
  refine (quiet_or_loud _).imp_left fun quiet => ?_
  have hsame := (and_eq_true_iff.mp quiet).2
  rw [hread, all_some] at hsame
  rw [sameIntcBits, hsr]
  exact hsame

theorem Control.run_steps {k : Control} (steps : InstSteps (!k.quiet env inst c) S)
    (read : k = .binaryLdclIndgenincSr ∨ k = .binaryLdslIndgenincFpscr → ∀ {val c1},
      c.memoryMapRead32 env (c.reg (Cpu.rn inst)) = some (val, c1) → ReflTransGen S c c1)
    (h : k.run env inst c = some c') :
    (∃ addr, k.target inst c = some addr ∧ Branches c addr c') ∨
      k.target inst c = none ∧ ReflTransGen S c c' := by
  cases k with
  | rts | unaryBrafGen | unaryBraDisp | unaryJmpIndgen =>
    cases h; exact .inl ⟨_, rfl, .branchTo c _⟩
  | rte => exact .inl ⟨_, rfl, .rte h⟩
  | unaryBsrfGen | unaryBsrDisp | unaryJsrIndgen => cases h; exact .inl ⟨_, rfl, .savePr c _⟩
  | unaryBfDisp | unaryBtDisp =>
    cases h
    exact .inr ⟨rfl, .single (steps.calm (Calm.branch c _ _))⟩
  | unaryBfsDisp | unaryBtsDisp =>
    cases h
    simp only [target, instUnaryBfsDisp, instUnaryBtsDisp]
    split
    · exact .inl ⟨_, rfl, .branchTo c _⟩
    · exact .inr ⟨rfl, .refl⟩
  | sleep => exact .inr ⟨rfl, steps.instSleep (quiet_or_loud _) h⟩
  | unaryTrapaDisp =>
    obtain rfl := instUnaryTrapaDisp_some h
    exact .inr ⟨rfl, .refl⟩
  | binaryLdcGenSr => exact .inr ⟨rfl, .single (steps.setSr (quiet_or_loud _) (setSr_some h))⟩
  | binaryLdclIndgenincSr =>
    obtain ⟨⟨val, c1⟩, hread, h⟩ := bind_eq_some_iff.mp h
    have hset := steps.setSr (ldcl_quiet_or_loud hread) (setSr_some h)
    exact .inr ⟨rfl, ((read (.inl rfl) hread).tail (steps.calm (Calm.writeGen c1 inst _))).tail hset⟩
  | binaryLdsGenFpscr =>
    cases h
    exact .inr ⟨rfl, .single (steps.calm (Calm.setFpscr c _))⟩
  | binaryLdslIndgenincFpscr =>
    obtain ⟨⟨val, c1⟩, hread, h⟩ := bind_eq_some_iff.mp h
    cases h
    exact .inr ⟨rfl, (read (.inr rfl) hread).tail
      (steps.calm ((Calm.setFpscr c1 val).trans (Calm.writeGen _ inst _)))⟩
  | frchg =>
    cases h
    exact .inr ⟨rfl, .single (steps.calm ((Calm.writeFpscr c _).trans (Calm.fpuBankSwitch _)))⟩
  | fschg =>
    cases h
    exact .inr ⟨rfl, .single (steps.calm (Calm.writeFpscr c _))⟩
  | invalid => exact .inr ⟨rfl, .single (steps.excp rfl h)⟩

theorem Control.run_some {k : Control} (h : k.run env inst c = some c') :
    (∃ addr, k.target inst c = some addr ∧ Branches c addr c') ∨
      k.target inst c = none ∧ ReflTransGen (Prim (!k.quiet env inst c)) c c' := by
  refine run_steps ⟨.calm, fun loud => .setSr _ loud, fun loud => .excp loud _⟩ ?_ h
  rintro (rfl | rfl) val c1 hread
  · refine prims_memoryMapRead32 ?_ hread
    exact (quiet_or_loud _).imp_left fun quiet => (and_eq_true_iff.mp quiet).1
  · exact prims_memoryMapRead32 (quiet_or_loud _) hread

theorem OpFunc.run_some {f : OpFunc} (h : f.run env inst c = some c') :
    (∃ addr, f.target inst c = some addr ∧ Branches c addr c') ∨
      f.target inst c = none ∧ ReflTransGen (Prim (!f.quiet env inst c)) c c' := by
  unfold OpFunc.run at h
  unfold target quiet
  cases hk : f.control with
  | some k =>
    rw [hk] at h
    exact Control.run_some h
  | none =>
    rw [hk] at h
    obtain ⟨⟨effects, world⟩, hplain, h⟩ := bind_eq_some_iff.mp h
    obtain ⟨c1, happly, h⟩ := bind_eq_some_iff.mp h
    cases h
    refine .inr ⟨rfl, (prims_applyAll ?_ happly).tail (.calm (Calm.world c1 world))⟩
    rw [hplain]
    exact quiet_or_loud _

theorem target_none {word : UInt16} (allowed : (sh4DecodeInst word).pcRelative = false) :
    (sh4DecodeInst word).func.target word c = none := by
  have hdecoded := sh4DecodeInst_halves word
  dsimp only at hdecoded
  cases hd : (sh4DecodeInst word).disas with
  | fallback =>
    rw [hd] at hdecoded
    obtain ⟨⟨fn, hfn⟩, -⟩ := hdecoded
    rw [hfn]
    cases fn <;> rfl
  | plain t =>
    rw [hd] at hdecoded
    rw [hdecoded.1]
    cases t <;> rfl
  | branch b =>
    rw [hd] at hdecoded
    rw [hdecoded.2] at allowed
    cases allowed

end

end Sh4

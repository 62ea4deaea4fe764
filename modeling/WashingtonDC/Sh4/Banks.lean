import WashingtonDC.Sh4.Steps

/-!
# The register banks of the SH4

The selected banks are kept in R0 to R7 and FR0 to FR15, the others elsewhere, and a change of
`SR.RB` or `FPSCR.FR` exchanges them. Seen by bank, no operation changes a register that it does
not name, so that each register holds the value last written to it.
-/
namespace Sh4

open Lockstep Option List Bool

variable {ω : Type}

/-! ## Registers by bank -/

section
variable (reg : Nat → UInt32) (idx : Nat)

def bank0RegIdx : Nat := if reg regSr &&& srRbMask ≠ 0 then regR0Bank + idx else idx

def bank1RegIdx : Nat := if reg regSr &&& srRbMask ≠ 0 then idx else regR0Bank + idx

def bank0FpuFr : Nat := if reg regFpscr &&& fpscrFrMask ≠ 0 then regXf0 + idx else regFr0 + idx

def bank1FpuFr : Nat := if reg regFpscr &&& fpscrFrMask ≠ 0 then regFr0 + idx else regXf0 + idx

end

inductive Banked
  | gen (bank : Bool) (i : Fin 8)
  | fp (bank : Bool) (i : Fin 16)
deriving DecidableEq

namespace Banked

def idx (reg : Nat → UInt32) : Banked → Nat
  | .gen false i => bank0RegIdx reg i
  | .gen true i => bank1RegIdx reg i
  | .fp false i => bank0FpuFr reg i
  | .fp true i => bank1FpuFr reg i

def ofIdx (reg : Nat → UInt32) (i : Nat) : Option Banked :=
  let rb := reg regSr &&& srRbMask != 0
  let fr := reg regFpscr &&& fpscrFrMask != 0
  if i < 8 then some (.gen rb (Fin.ofNat 8 i))
  else if regR0Bank ≤ i ∧ i < regFr0 then some (.gen (!rb) (Fin.ofNat 8 (i - regR0Bank)))
  else if regFr0 ≤ i ∧ i < regXf0 then some (.fp fr (Fin.ofNat 16 (i - regFr0)))
  else if regXf0 ≤ i ∧ i < regFpscr then some (.fp (!fr) (Fin.ofNat 16 (i - regXf0)))
  else none

variable (reg : Nat → UInt32)

theorem idx_gen (bank : Bool) (i : Fin 8) :
    idx reg (.gen bank i) =
      if bank = (reg regSr &&& srRbMask != 0) then i.val else regR0Bank + i.val := by
  cases bank <;> simp only [idx, bank0RegIdx, bank1RegIdx] <;> split <;> simp_all

theorem idx_fp (bank : Bool) (i : Fin 16) :
    idx reg (.fp bank i) =
      if bank = (reg regFpscr &&& fpscrFrMask != 0) then regFr0 + i.val else regXf0 + i.val := by
  cases bank <;> simp only [idx, bank0FpuFr, bank1FpuFr] <;> split <;> simp_all

theorem idx_lt (b : Banked) : b.idx reg < regFpscr := by
  cases b with
  | gen bank i =>
    rw [idx_gen]
    split <;> simp only [regR0Bank, regFpscr] <;> omega
  | fp bank i =>
    rw [idx_fp]
    split <;> simp only [regFr0, regXf0, regFpscr] <;> omega

variable {reg}

variable {i : Nat}

theorem ofIdx_eq_some {b : Banked} (h : ofIdx reg i = some b) : b.idx reg = i := by
  simp only [ofIdx, regR0Bank, regFr0, regXf0, regFpscr] at h
  split at h
  · cases h
    rw [idx_gen, if_pos rfl, Fin.val_ofNat]
    omega
  · split at h
    · cases h
      rw [idx_gen, if_neg (by simp), Fin.val_ofNat]
      simp only [regR0Bank]
      omega
    · split at h
      · cases h
        rw [idx_fp, if_pos rfl, Fin.val_ofNat]
        simp only [regFr0]
        omega
      · split at h
        · cases h
          rw [idx_fp, if_neg (by simp), Fin.val_ofNat]
          simp only [regXf0]
          omega
        · cases h

theorem ofIdx_idx (b : Banked) : ofIdx reg (b.idx reg) = some b := by
  cases b with
  | gen bank i =>
    have hi := i.isLt
    rw [idx_gen]
    simp only [ofIdx, regR0Bank, regFr0]
    split
    · rename_i hbank
      rw [← hbank]
      exact congrArg (fun i => some (gen bank i)) (Fin.ext (Nat.mod_eq_of_lt hi))
    · rename_i hbank
      rw [if_neg (by omega), if_pos (by omega), ← eq_not.mpr hbank, Nat.add_sub_cancel_left]
      exact congrArg (fun i => some (gen bank i)) (Fin.ext (Nat.mod_eq_of_lt hi))
  | fp bank i =>
    have hi := i.isLt
    rw [idx_fp]
    simp only [ofIdx, regR0Bank, regFr0, regXf0, regFpscr]
    split
    · rename_i hbank
      rw [if_neg (by omega), if_neg (by omega), if_pos (by omega), ← hbank,
        Nat.add_sub_cancel_left]
      exact congrArg (fun i => some (fp bank i)) (Fin.ext (Nat.mod_eq_of_lt hi))
    · rename_i hbank
      rw [if_neg (by omega), if_neg (by omega), if_neg (by omega), if_pos (by omega),
        ← eq_not.mpr hbank, Nat.add_sub_cancel_left]
      exact congrArg (fun i => some (fp bank i)) (Fin.ext (Nat.mod_eq_of_lt hi))

theorem ofIdx_none (high : regFpscr ≤ i) : ofIdx reg i = none := by
  simp only [ofIdx, regR0Bank, regFr0, regXf0, regFpscr] at high ⊢
  rw [if_neg (by omega), if_neg (by omega), if_neg (by omega), if_neg (by omega)]

theorem ofIdx_general {reg' : Nat → UInt32} (sr : reg' regSr = reg regSr) (low : i < regFr0) :
    ofIdx reg' i = ofIdx reg i := by
  simp only [ofIdx, sr]
  rw [if_neg (show ¬(regFr0 ≤ i ∧ i < regXf0) by omega),
    if_neg (show ¬(regFr0 ≤ i ∧ i < regXf0) by omega),
    if_neg (show ¬(regXf0 ≤ i ∧ i < regFpscr) by simp only [regFr0, regXf0] at *; omega),
    if_neg (show ¬(regXf0 ≤ i ∧ i < regFpscr) by simp only [regFr0, regXf0] at *; omega)]

theorem idx_congr {reg' : Nat → UInt32}
    (rb : reg' regSr &&& srRbMask = reg regSr &&& srRbMask)
    (fr : reg' regFpscr &&& fpscrFrMask = reg regFpscr &&& fpscrFrMask) (b : Banked) :
    b.idx reg' = b.idx reg := by
  cases b with
  | gen bank i => rw [idx_gen, idx_gen, rb]
  | fp bank i => rw [idx_fp, idx_fp, fr]

end Banked

abbrev BankedWrite := Banked × UInt32

def applyWrite (view : Banked → UInt32) : Option BankedWrite → Banked → UInt32
  | none => view
  | some w => Function.update view w.1 w.2

namespace Cpu

variable (c : Cpu ω)

def banked (b : Banked) : UInt32 := c.reg (b.idx c.reg)

/-- A write to a place, as a write to the register that is kept there. -/
def named (i : Nat) (v : UInt32) : Option BankedWrite := (Banked.ofIdx c.reg i).map (·, v)

end Cpu

/-! ## Operations -/

/-- Writes of the status registers: by instructions, by entries, by the debugger; and writes of
other registers. -/
inductive BankOp
  | inst (k : Control) (word : UInt16)
  | effect (e : Effect)
  | setException (code : UInt32)
  | enterIrqFromMeta
  | setInterrupt (line : Nat) (code : UInt32)
  | setIrlInterrupt (val : UInt32)
  | doRefreshIntcDeferred
  | setIndividualReg (regNo : Nat) (val : UInt32)

namespace Cpu

variable (env : Env ω) (c : Cpu ω)

def bankOp : BankOp → Option (Cpu ω)
  | .inst k word => k.run env word c
  | .effect e => c.apply e
  | .setException code => c.setException code
  | .enterIrqFromMeta => c.enterIrqFromMeta refreshIntc
  | .setInterrupt line code => c.setInterrupt line code
  | .setIrlInterrupt val => c.setIrlInterrupt val
  | .doRefreshIntcDeferred => c.doRefreshIntcDeferred
  | .setIndividualReg regNo val => c.setIndividualReg regNo val

def effectWrite : Effect → Option BankedWrite
  | .write i _ val => c.named i val
  | _ => none

/-- The register that an operation names, with its new value. The loads increment their address
register after the read. -/
def bankWrite : BankOp → Option BankedWrite
  | .inst .binaryLdclIndgenincSr word | .inst .binaryLdslIndgenincFpscr word =>
    (c.memoryMapRead32 env (c.reg (rn word))).bind fun r =>
      r.2.named (rn word) (r.2.reg (rn word) + 4)
  | .effect e => c.effectWrite e
  | .setIndividualReg regNo val => c.named regNo val
  | _ => none

def bankStep (op : BankOp) : Option (Option BankedWrite × Cpu ω) :=
  (c.bankOp env op).map fun c' => (c.bankWrite env op, c')

end Cpu

/-! ## What keeps the registers -/

section
variable {env : Env ω} {c c' c'' : Cpu ω}

def Keeps (c c' : Cpu ω) : Prop := c'.banked = c.banked

theorem Keeps.of_reg (same : c'.reg = c.reg) : Keeps c c' := by
  unfold Keeps Cpu.banked
  rw [same]

theorem Keeps.trans (first : Keeps c c') (second : Keeps c' c'') : Keeps c c'' :=
  Eq.trans second first

theorem Keeps.of_low (low : ∀ i < regFpscr, c'.reg i = c.reg i)
    (rb : c'.reg regSr &&& srRbMask = c.reg regSr &&& srRbMask)
    (fr : c'.reg regFpscr &&& fpscrFrMask = c.reg regFpscr &&& fpscrFrMask) : Keeps c c' := by
  funext b
  unfold Cpu.banked
  rw [Banked.idx_congr rb fr]
  exact low _ (b.idx_lt _)

variable {i : Nat} {v : UInt32}

theorem Cpu.banked_write (notSr : i ≠ regSr) (notFpscr : i ≠ regFpscr) :
    (c.write i v).banked = applyWrite c.banked (c.named i v) := by
  have hidx : ∀ b : Banked, b.idx (c.write i v).reg = b.idx c.reg := by
    refine Banked.idx_congr ?_ ?_
    · rw [write_reg, if_neg notSr.symm]
    · rw [write_reg, if_neg notFpscr.symm]
  funext b
  unfold banked named
  rw [hidx, write_reg]
  cases hof : Banked.ofIdx c.reg i with
  | none =>
    have hne : b.idx c.reg ≠ i := by
      rintro rfl
      rw [Banked.ofIdx_idx] at hof
      cases hof
    rw [if_neg hne]
    rfl
  | some b' =>
    have hb' := Banked.ofIdx_eq_some hof
    by_cases hb : b = b'
    · subst hb
      simp [applyWrite, hb']
    · have hne : b.idx c.reg ≠ i := by
        rintro rfl
        rw [Banked.ofIdx_idx] at hof
        exact hb (Option.some.inj hof)
      simp [applyWrite, hne, hb]

theorem Keeps.write (v : UInt32) (high : regFpscr < i) (notSr : i ≠ regSr) :
    Keeps c (c.write i v) := by
  unfold Keeps
  rw [Cpu.banked_write notSr (by omega), Cpu.named, Banked.ofIdx_none (by omega)]
  rfl

theorem bit_ne {a b m : UInt32} (bit : m.toNat = 2 ^ i) (differ : a &&& m ≠ b &&& m) :
    (a &&& m != 0) = !(b &&& m != 0) := by
  rcases WordMask.and_bit a bit with ha | ha <;> rcases WordMask.and_bit b bit with hb | hb <;>
    rw [ha, hb] at differ ⊢ <;> simp_all [Ne.symm]

theorem Cpu.bankSwitch_banked (i : Fin 8) :
    c.bankSwitch.reg i.val = c.reg (regR0Bank + i.val) ∧
      c.bankSwitch.reg (regR0Bank + i.val) = c.reg i.val := by
  have hi := i.isLt
  simp only [bankSwitch, regR0Bank]
  rw [if_pos hi, if_neg (by omega), if_pos (by omega), add_comm, Nat.add_sub_cancel_left]
  exact ⟨rfl, rfl⟩

theorem Cpu.fpuBankSwitch_banked (i : Fin 16) :
    c.fpuBankSwitch.reg (regFr0 + i.val) = c.reg (regXf0 + i.val) ∧
      c.fpuBankSwitch.reg (regXf0 + i.val) = c.reg (regFr0 + i.val) := by
  simp only [fpuBankSwitch, regFr0, regXf0]
  rw [if_pos (by omega), if_neg (by omega), if_pos (by omega)]
  constructor
  · exact congrArg c.reg (by omega)
  · exact congrArg c.reg (by omega)

theorem Cpu.fpuBankSwitch_reg (other : i < regFr0 ∨ regFpscr ≤ i) :
    c.fpuBankSwitch.reg i = c.reg i := by
  simp only [fpuBankSwitch, regFr0, regFpscr] at other ⊢
  rw [if_neg (by omega), if_neg (by omega)]

theorem Keeps.setSr (set : Cpu.SetsSr c v c') : Keeps c c' := by
  have hfpscr : c'.reg regFpscr = c.reg regFpscr := set.reg_high (by decide) (by decide)
  by_cases hrb : c.sr &&& srRbMask = v &&& srRbMask
  · have hreg : c'.reg = (c.write regSr v).reg := by
      rw [set.reg, Cpu.bankSwitchMaybe, if_neg (not_not.mpr hrb)]
    refine .of_low ?_ ?_ (by rw [hfpscr])
    · intro i hi
      rw [hreg, Cpu.write_reg, if_neg (by simp only [regFpscr, regSr] at *; omega)]
    · rw [set.sr]
      exact hrb.symm
  · have hreg : c'.reg = (c.write regSr v).bankSwitch.reg := by
      rw [set.reg, Cpu.bankSwitchMaybe, if_pos hrb]
    have hbit := bit_ne (show srRbMask.toNat = 2 ^ 29 by decide) hrb
    funext b
    cases b with
    | gen bank i =>
      obtain ⟨hlow, hhigh⟩ := Cpu.bankSwitch_banked (c := c.write regSr v) i
      have hsr : (c.reg regSr &&& srRbMask != 0) = !(v &&& srRbMask != 0) := hbit
      simp only [Cpu.banked, Banked.idx_gen, set.sr, hsr]
      by_cases hbank : bank = (v &&& srRbMask != 0)
      · rw [if_pos hbank, if_neg (by simp [hbank]), hreg, hlow, Cpu.write_reg,
          if_neg (by simp only [regR0Bank, regSr]; omega)]
      · rw [if_neg hbank, if_pos (eq_not.mpr hbank), hreg, hhigh, Cpu.write_reg,
          if_neg (by simp only [regSr]; omega)]
    | fp bank i =>
      simp only [Cpu.banked, Banked.idx_fp, hfpscr]
      split <;> exact set.reg_high (by simp only [regFr0, regXf0]; omega)
        (by simp only [regFr0, regXf0, regSr]; omega)

theorem Keeps.fpuBankSwitch (differ : c.fpscr &&& fpscrFrMask ≠ v &&& fpscrFrMask)
    (fpscr : c'.reg regFpscr = v) (reg : ∀ i ≠ regFpscr, c'.reg i = c.fpuBankSwitch.reg i) :
    Keeps c c' := by
  have hbit := bit_ne (show fpscrFrMask.toNat = 2 ^ 21 by decide) differ
  funext b
  cases b with
  | gen bank i =>
    have hi := i.isLt
    have hsr : c'.reg regSr = c.reg regSr := by
      rw [reg _ (by decide), Cpu.fpuBankSwitch_reg (.inr (by decide))]
    simp only [Cpu.banked, Banked.idx_gen, hsr]
    split <;> rw [reg _ (by simp only [regR0Bank, regFpscr]; omega), Cpu.fpuBankSwitch_reg] <;>
      exact .inl (by simp only [regR0Bank, regFr0]; omega)
  | fp bank i =>
    obtain ⟨hlow, hhigh⟩ := Cpu.fpuBankSwitch_banked (c := c) i
    have hfr : (c.reg regFpscr &&& fpscrFrMask != 0) = !(v &&& fpscrFrMask != 0) := hbit
    simp only [Cpu.banked, Banked.idx_fp, fpscr, hfr]
    by_cases hbank : bank = (v &&& fpscrFrMask != 0)
    · rw [if_pos hbank, if_neg (by simp [hbank]), reg _ (by simp only [regFr0, regFpscr]; omega),
        hlow]
    · rw [if_neg hbank, if_pos (eq_not.mpr hbank),
        reg _ (by simp only [regXf0, regFpscr]; omega), hhigh]

theorem Keeps.writeFpscr (same : v &&& fpscrFrMask = c.fpscr &&& fpscrFrMask) :
    Keeps c (c.write regFpscr v) := by
  refine .of_low ?_ ?_ ?_
  · intro i hi
    rw [Cpu.write_reg, if_neg (by omega)]
  · rw [Cpu.write_reg, if_neg (by decide)]
  · rw [Cpu.write_reg, if_pos rfl]
    exact same

theorem Cpu.setFpscr_reg (other : i < regFr0 ∨ regFpscr < i) : (c.setFpscr v).reg i = c.reg i := by
  unfold setFpscr fpuBankSwitchMaybe
  rw [write_reg, if_neg (by simp only [regFr0, regFpscr] at *; omega)]
  split
  · exact fpuBankSwitch_reg (other.imp_right le_of_lt)
  · rfl

theorem Keeps.setFpscr (v : UInt32) : Keeps c (c.setFpscr v) := by
  unfold Cpu.setFpscr Cpu.fpuBankSwitchMaybe
  by_cases hfr : c.fpscr &&& fpscrFrMask = v &&& fpscrFrMask
  · rw [if_neg (not_not.mpr hfr)]
    exact .writeFpscr hfr.symm
  · rw [if_pos hfr]
    refine .fpuBankSwitch hfr ?_ fun i hi => ?_
    · rw [Cpu.write_reg, if_pos rfl]
    · rw [Cpu.write_reg, if_neg hi]

theorem Keeps.instFrchg : Keeps c c.instFrchg := by
  have hswitch : ∀ i, (c.write regFpscr (c.fpscr ^^^ fpscrFrMask)).fpuBankSwitch.reg i =
      if i = regFpscr then c.fpscr ^^^ fpscrFrMask else c.fpuBankSwitch.reg i := by
    intro i
    simp only [Cpu.fpuBankSwitch, Cpu.write_reg, regFpscr]
    split_ifs <;> first | rfl | omega
  refine .fpuBankSwitch (v := c.fpscr ^^^ fpscrFrMask) ?_ ?_ fun i hi => ?_
  · rw [WordMask.xor_and]
    rcases WordMask.and_bit c.fpscr (show fpscrFrMask.toNat = 2 ^ 21 by decide) with h | h <;>
      rw [h] <;> decide
  · exact (hswitch regFpscr).trans (if_pos rfl)
  · exact (hswitch i).trans (if_neg hi)

theorem Keeps.instFschg : Keeps c c.instFschg := by
  refine .writeFpscr ?_
  rw [WordMask.xor_and]
  exact UInt32.xor_zero

theorem Keeps.setFlags (v : UInt32) :
    Keeps c (c.write regSr (merge (~~~srSystemBits) c.sr v)) := by
  refine .of_low ?_ ?_ ?_
  · intro i hi
    rw [Cpu.write_reg, if_neg (by simp only [regFpscr, regSr] at *; omega)]
  · rw [Cpu.write_reg, if_pos rfl, merge_and_of_disjoint _ _ (by decide)]
    rfl
  · rw [Cpu.write_reg, if_neg (by decide)]

/-! ## Entries -/

theorem Keeps.enterException {code : UInt32} (h : c.enterException code = some c') :
    Keeps c c' := by
  obtain ⟨offset, c1, -, hset, rfl⟩ := Cpu.enterException_some h
  have hsaved : Keeps c c.saved :=
    (write _ (by decide) (by decide)).trans
      ((write _ (by decide) (by decide)).trans (write _ (by decide) (by decide)))
  exact hsaved.trans ((setSr hset).trans (write _ (by decide) (by decide)))

theorem Keeps.setException {code : UInt32} (h : c.setException code = some c') : Keeps c c' := by
  have hwrite : Keeps c ((c.record code none).write regExpevt (code &&& 0xfff)) :=
    (of_reg rfl).trans (write _ (by decide) (by decide))
  exact hwrite.trans (.enterException h)

theorem Keeps.enterIrqFromMeta {n : Nat}
    (h : c.enterIrqFromMeta (Cpu.refreshIntcFuel (n + 1)) = some c') : Keeps c c' := by
  rw [Cpu.enterIrqFromMeta_eq] at h
  obtain ⟨c1, henter, rfl⟩ := map_eq_some_iff.mp h
  have hwrite : Keeps c ((c.record c.intc.pendingIrq.code (some c.intc.pendingIrq)).write regIntevt
      (c.intc.pendingIrq.code &&& 0xfff)) :=
    (of_reg rfl).trans (write _ (by decide) (by decide))
  exact hwrite.trans ((enterException henter).trans (.of_reg (c1.acknowledge_reg _)))

theorem Keeps.refreshIntc (h : c.refreshIntc = some c') : Keeps c c' := by
  have h : c.updatePending.checkInterrupts (Cpu.refreshIntcFuel 1) = some c' := h
  have hpending : Keeps c c.updatePending := by
    unfold Cpu.updatePending
    split <;> exact .of_reg rfl
  refine hpending.trans ?_
  unfold Cpu.checkInterrupts Cpu.checkInterruptsNoDelayBranchCheck at h
  split at h
  · split at h
    · obtain ⟨c1, henter, rfl⟩ := map_eq_some_iff.mp h
      exact (enterIrqFromMeta henter).trans (.of_reg rfl)
    · cases h
      exact .of_reg rfl
  · cases h
    exact .of_reg rfl

theorem Keeps.setIrlInterrupt {val : UInt32} (h : c.setIrlInterrupt val = some c') : Keeps c c' :=
  (of_reg rfl : Keeps c (c.setIrlLines val)).trans (.refreshIntc h)

/-! ## Instructions -/

theorem Keeps.intcReg (high : regIcr ≤ i) (h : (c.write i v).refreshIntcDeferred = some c') :
    Keeps c c' := by
  have hwrite : Keeps c (c.write i v) :=
    write v (by simp only [regIcr, regFpscr] at *; omega)
      (by simp only [regIcr, regSr] at *; omega)
  exact hwrite.trans (.of_reg (Cpu.refreshIntcDeferred_some h).2.2.1)

theorem Cpu.banked_apply {e : Effect} (h : c.apply e = some c') :
    c'.banked = applyWrite c.banked (c.effectWrite e) := by
  cases e with
  | write i plain val =>
    cases h
    have hplain : i ≠ regSr ∧ i ≠ regFpscr := by
      simp only [isControlReg, or_eq_false_iff, beq_eq_false_iff_ne] at plain
      exact ⟨plain.1.1.1, plain.1.1.2⟩
    exact banked_write hplain.1 hplain.2
  | setFlags val =>
    cases h
    exact Keeps.setFlags val
  | setFpscrBits val =>
    cases h
    exact Keeps.writeFpscr (merge_and_of_disjoint _ _ (by decide))
  | icr val => exact Keeps.intcReg (by decide) h
  | ipr n val =>
    obtain ⟨_ | _ | _ | _ | n, hn⟩ := n
    iterate 4 exact Keeps.intcReg (by decide) h
    omega
  | irl val => exact Keeps.setIrlInterrupt h
  | invalid => exact Keeps.setException h

theorem Keeps.apply {e : Effect} (viaMemory : e.viaMemory = true) (h : c.apply e = some c') :
    Keeps c c' := by
  cases e with
  | write i plain val =>
    cases h
    have hi : 69 ≤ i := of_decide_eq_true viaMemory
    exact .write val (by simp only [regFpscr]; omega) (by simp only [regSr]; omega)
  | setFlags val | setFpscrBits val | invalid => cases viaMemory
  | icr val | irl val | ipr _ _ => exact Cpu.banked_apply h

theorem Keeps.applyAll {effects : List Effect} (viaMemory : effects.all Effect.viaMemory = true)
    (h : c.applyAll effects = some c') : Keeps c c' := by
  rw [List.all_eq_true] at viaMemory
  exact foldlM_invariant (fun hmem he keeps => keeps.trans (apply (viaMemory _ hmem) he)) h
    (.of_reg rfl)

theorem Keeps.memoryMapRead32 {addr val : UInt32}
    (h : c.memoryMapRead32 env addr = some (val, c')) : Keeps c c' := by
  obtain ⟨⟨val', effects, world⟩, hread, h⟩ := bind_eq_some_iff.mp h
  obtain ⟨c1, happly, h⟩ := bind_eq_some_iff.mp h
  cases h
  exact (applyAll (env.read32_viaMemory hread) happly).trans (.of_reg rfl)

theorem Keeps.branch (p : Prop) [Decidable p] (v : UInt32) :
    Keeps c (if p then c.write regPc v else c) := by
  split
  · exact .write v (by decide) (by decide)
  · exact .of_reg rfl

theorem Keeps.savePr (addr : UInt32) : Keeps c (c.savePr.branchTo addr) :=
  (write (c.pc + 4) (by decide) (by decide)).trans (.of_reg rfl)

theorem Cpu.banked_writeGen (word : UInt16) (v : UInt32) :
    (c.write (rn word) v).banked = applyWrite c.banked (c.named (rn word) v) := by
  have hlt := rn_lt word
  exact banked_write (by simp only [regSr]; omega) (by simp only [regFpscr]; omega)

variable {word : UInt16}

theorem Cpu.banked_ldclIndgenincSr (h : c.instBinaryLdclIndgenincSr env word = some c') :
    c'.banked = applyWrite c.banked (c.bankWrite env (.inst .binaryLdclIndgenincSr word)) := by
  obtain ⟨⟨val, c1⟩, hread, hset⟩ := bind_eq_some_iff.mp h
  have hkeeps := Keeps.memoryMapRead32 hread
  simp only [bankWrite, hread, bind_some]
  calc c'.banked = (c1.write (rn word) (c1.reg (rn word) + 4)).banked := Keeps.setSr (setSr_some hset)
    _ = applyWrite c1.banked _ := banked_writeGen word _
    _ = _ := by rw [hkeeps]

theorem Cpu.banked_ldslIndgenincFpscr (h : c.instBinaryLdslIndgenincFpscr env word = some c') :
    c'.banked = applyWrite c.banked (c.bankWrite env (.inst .binaryLdslIndgenincFpscr word)) := by
  obtain ⟨⟨val, c1⟩, hread, hset⟩ := bind_eq_some_iff.mp h
  cases hset
  have hkeeps := Keeps.memoryMapRead32 hread
  have hlt := rn_lt word
  simp only [bankWrite, hread, bind_some]
  -- Neither the address register nor the bank it is in depends on FPSCR.
  have hreg : (c1.setFpscr val).reg (rn word) = c1.reg (rn word) :=
    setFpscr_reg (.inl (by simp only [regFr0]; omega))
  have hnamed : ∀ v, (c1.setFpscr val).named (rn word) v = c1.named (rn word) v := by
    intro v
    have hsr := setFpscr_reg (c := c1) (v := val) (i := regSr) (.inr (by decide))
    rw [named, Banked.ofIdx_general hsr (by simp only [regFr0]; omega)]
    rfl
  calc ((c1.setFpscr val).write (rn word) ((c1.setFpscr val).reg (rn word) + 4)).banked
      = applyWrite (c1.setFpscr val).banked _ := banked_writeGen word _
    _ = applyWrite c.banked _ := by rw [Keeps.setFpscr val, hkeeps]
    _ = _ := by rw [hreg, hnamed]

theorem Keeps.instSleep (h : c.instSleep = some c') : Keeps c c' := by
  unfold Cpu.instSleep at h
  split at h
  · split at h
    · exact .setException h
    · cases h
      exact .of_reg rfl
  · cases h
    exact .of_reg rfl

theorem Cpu.banked_inst {k : Control} (h : k.run env word c = some c') :
    c'.banked = applyWrite c.banked (c.bankWrite env (.inst k word)) := by
  cases k with
  | rts | unaryBrafGen | unaryBraDisp | unaryJmpIndgen => cases h; exact Keeps.of_reg rfl
  | rte =>
    have h : (c.branchTo (c.reg regSpc)).setSr (c.reg regSsr) = some c' := h
    exact (Keeps.of_reg rfl : Keeps c (c.branchTo (c.reg regSpc))).trans
      (Keeps.setSr (setSr_some h))
  | unaryBsrfGen | unaryBsrDisp | unaryJsrIndgen => cases h; exact Keeps.savePr _
  | unaryBfDisp | unaryBtDisp => cases h; exact Keeps.branch _ _
  | unaryBfsDisp | unaryBtsDisp =>
    cases h
    simp only [instUnaryBfsDisp, instUnaryBtsDisp]
    split <;> exact Keeps.of_reg rfl
  | sleep => exact Keeps.instSleep h
  | unaryTrapaDisp =>
    obtain rfl := instUnaryTrapaDisp_some h
    rfl
  | binaryLdcGenSr => exact Keeps.setSr (setSr_some h)
  | binaryLdclIndgenincSr => exact banked_ldclIndgenincSr h
  | binaryLdsGenFpscr => cases h; exact Keeps.setFpscr _
  | binaryLdslIndgenincFpscr => exact banked_ldslIndgenincFpscr h
  | frchg => cases h; exact Keeps.instFrchg
  | fschg => cases h; exact Keeps.instFschg
  | invalid => exact Keeps.setException h

theorem Cpu.banked_bankOp {op : BankOp} (h : c.bankOp env op = some c') :
    c'.banked = applyWrite c.banked (c.bankWrite env op) := by
  cases op with
  | inst k word => exact banked_inst h
  | effect e => exact banked_apply h
  | setException code => exact Keeps.setException h
  | enterIrqFromMeta => exact Keeps.enterIrqFromMeta (n := 1) h
  | setInterrupt line code =>
    exact (Keeps.of_reg rfl : Keeps c (c.setLine line code)).trans (Keeps.refreshIntc h)
  | setIrlInterrupt val => exact Keeps.setIrlInterrupt h
  | doRefreshIntcDeferred =>
    obtain ⟨c1, hrefresh, rfl⟩ := map_eq_some_iff.mp h
    exact (Keeps.refreshIntc hrefresh).trans (.of_reg rfl)
  | setIndividualReg regNo val =>
    have h : c.setIndividualReg regNo val = some c' := h
    unfold setIndividualReg at h
    simp only [bankWrite]
    split at h
    · rename_i hfpscr
      cases h
      rw [hfpscr, named, Banked.ofIdx_none (by decide)]
      exact Keeps.setFpscr val
    · rename_i hfpscr
      split at h
      · rename_i hsr
        rw [hsr, named, Banked.ofIdx_none (by decide)]
        exact Keeps.setSr (setSr_some h)
      · rename_i hsr
        cases h
        exact banked_write hsr hfpscr

end

/-! ## Runs -/

def lastWrite (writes : List BankedWrite) (b : Banked) : Option UInt32 :=
  (writes.reverse.find? (·.1 = b)).map (·.2)

theorem foldl_applyWrite (writes : List (Option BankedWrite)) (view : Banked → UInt32)
    (b : Banked) :
    writes.foldl applyWrite view b = (lastWrite (writes.filterMap id) b).getD (view b) := by
  induction writes using reverseRecOn with
  | nil => rfl
  | append_singleton writes w ih =>
    rw [foldl_append, foldl_cons, foldl_nil, filterMap_append]
    cases w with
    | none => simpa [applyWrite] using ih
    | some w =>
      simp only [applyWrite, Function.update_apply, lastWrite, filterMap_cons, id_eq,
        filterMap_nil, reverse_append, reverse_singleton, singleton_append,
        find?_cons]
      by_cases hb : b = w.1
      · simp [hb]
      · rw [if_neg hb, decide_eq_false (Ne.symm hb)]
        exact ih

/-- Seen by bank, no operation changes a register that it does not name; and after any sequence
of operations each register holds the value last written to it. -/
theorem banked_registers_kept (env : Env ω) :
    (∀ (c c' : Cpu ω) (op : BankOp), c.bankOp env op = some c' → ∀ b,
      (∀ v, c.bankWrite env op ≠ some (b, v)) → c'.banked b = c.banked b) ∧
    ∀ (c₀ c : Cpu ω) (ops : List BankOp) (writes : List (Option BankedWrite)),
      run (Cpu.bankStep env) c₀ ops = (writes, some c) → ∀ b,
        c.banked b = (lastWrite (writes.filterMap id) b).getD (c₀.banked b) := by
  constructor
  · intro c c' op h b hnamed
    rw [Cpu.banked_bankOp h]
    cases hw : c.bankWrite env op with
    | none => rfl
    | some w =>
      refine Function.update_of_ne ?_ _ _
      rintro rfl
      exact hnamed w.2 hw
  · intro c₀ c ops writes reached b
    have hfold : c.banked = writes.foldl applyWrite c₀.banked := by
      refine run_foldl (P := fun _ => True) ?_ reached fun _ _ => trivial
      intro s op w s' hstep _
      obtain ⟨c', hop, hpair⟩ := map_eq_some_iff.mp hstep
      cases hpair
      exact Cpu.banked_bankOp hop
    rw [hfold, foldl_applyWrite]

/-- R0 is written in bank 1, LDC R1,SR selects bank 0, R0 is written again, and FRCHG follows. -/
def switchingOps : List BankOp :=
  [.effect (.write 0 (by decide) 5), .inst .binaryLdcGenSr 0x410e,
    .effect (.write 0 (by decide) 7), .inst .frchg 0xfbfd]

theorem switchingOps_kept :
    ∃ c, (run (Cpu.bankStep bareEnv) (resetCpu fun i => if i = 1 then 0x40000000 else 0)
        switchingOps).2 = some c ∧
      c.banked (.gen true 0) = 5 ∧ c.banked (.gen false 0) = 7 := by
  have hrun : (run (Cpu.bankStep bareEnv) (resetCpu fun i => if i = 1 then 0x40000000 else 0)
      switchingOps).2.isSome = true := by
    decide +kernel
  obtain ⟨c, hc⟩ := isSome_iff_exists.mp hrun
  have hkept := (banked_registers_kept bareEnv).2 _ c _ _ (Prod.ext rfl hc)
  have hwrites : lastWrite ((run (Cpu.bankStep bareEnv)
      (resetCpu fun i => if i = 1 then 0x40000000 else 0) switchingOps).1.filterMap id)
        (.gen true 0) = some 5 ∧
      lastWrite ((run (Cpu.bankStep bareEnv)
        (resetCpu fun i => if i = 1 then 0x40000000 else 0) switchingOps).1.filterMap id)
        (.gen false 0) = some 7 := by
    decide +kernel
  refine ⟨c, hc, ?_, ?_⟩
  · rw [hkept, hwrites.1]
    rfl
  · rw [hkept, hwrites.2]
    rfl

end Sh4

import WashingtonDC.Arm7.Memory
import WashingtonDC.Lockstep

/-!
# Steps of the ARM7 core

What one instruction does to R15, to the pipeline and to the dirty flag of the exceptions, and
the core as a machine that executes instructions and answers line calls. The result of an
instruction in the other registers and in memory is not described here.
-/
namespace Arm7

open Option

variable {σ : Type}

/-- The pipeline and the dirty flag are as before, and R15 as well if `stay` holds. -/
structure Keeps (stay : Prop) (c c' : Core σ) : Prop where
  pc : stay → c'.pc = c.pc
  full : c'.pipelineFull = c.pipelineFull
  dirty : c'.excpDirty = c.excpDirty

namespace Keeps

variable {c c' c'' : Core σ} {stay stay' : Prop}

theorem refl (c : Core σ) : Keeps stay c c := ⟨fun _ => rfl, rfl, rfl⟩

theorem trans (first : Keeps stay c c') (second : Keeps stay c' c'') : Keeps stay c c'' :=
  ⟨fun h => (second.pc h).trans (first.pc h), second.full.trans first.full,
    second.dirty.trans first.dirty⟩

theorem weaken (keeps : Keeps stay c c') (imp : stay' → stay) : Keeps stay' c c' :=
  ⟨fun h => keeps.pc (imp h), keeps.full, keeps.dirty⟩

theorem write {i : Nat} (ne : stay → i ≠ regPc) (v : UInt32) : Keeps stay c (c.write i v) :=
  ⟨fun h => c.write_pc_ne i v (ne h), rfl, rfl⟩

end Keeps

theorem spsrIdx_ne_pc {mode : Mode} {i : Nat} (h : mode.spsrIdx = some i) : i ≠ regPc := by
  cases mode <;> simp only [Mode.spsrIdx, Option.some.injEq, reduceCtorEq] at h <;>
    subst h <;> decide

section
variable {c c' : Core σ} {n i : Nat} {v : UInt32}

theorem Core.genReg_some (h : c.genReg n = some i) : ∃ mode : Mode, i = mode.genReg n := by
  unfold genReg at h
  obtain ⟨mode, -, rfl⟩ := map_eq_some_iff.mp h
  exact ⟨mode, rfl⟩

theorem Core.spsrIdx_ne_pc (h : c.spsrIdx = some i) : i ≠ regPc := by
  obtain ⟨mode, -, hmode⟩ := bind_eq_some_iff.mp h
  exact Arm7.spsrIdx_ne_pc hmode

theorem Keeps.set (h : c.set n v = some c') : Keeps (n ≠ 15) c c' := by
  obtain ⟨i, hi, rfl⟩ := map_eq_some_iff.mp h
  obtain ⟨mode, rfl⟩ := Core.genReg_some hi
  exact write (genReg_ne_pc mode) v

end

/-! ## Memory accesses -/

section
variable {aica : AicaSys σ} {addr : UInt32} {c c' : Core σ} {stay : Prop}

theorem Keeps.afterWrite (c : Core σ) (mem : Mem σ) (clears : Bool) :
    Keeps stay c (c.afterWrite mem clears) := by
  unfold Core.afterWrite
  split <;> exact ⟨fun _ => rfl, rfl, rfl⟩

theorem Keeps.read32 {val : UInt32} (h : memoryMapRead32 aica addr c = some (val, c')) :
    Keeps stay c c' := by
  obtain ⟨mem, rfl⟩ := read32_frame h
  exact ⟨fun _ => rfl, rfl, rfl⟩

theorem Keeps.read8 {val : UInt8} (h : memoryMapRead8 aica addr c = some (val, c')) :
    Keeps stay c c' := by
  obtain ⟨mem, rfl⟩ := read8_frame h
  exact ⟨fun _ => rfl, rfl, rfl⟩

theorem Keeps.write32 {val : UInt32} (h : memoryMapWrite32 aica addr c val = some c') :
    Keeps stay c c' := by
  obtain ⟨mem, clears, rfl⟩ := write32_frame h
  exact afterWrite c mem clears

theorem Keeps.write8 {val : UInt8} (h : memoryMapWrite8 aica addr c val = some c') :
    Keeps stay c c' := by
  obtain ⟨mem, clears, rfl⟩ := write8_frame h
  exact afterWrite c mem clears

end

/-! ## Instructions -/

/-- The instruction jumped, or it moved R15 to the next word. -/
structure Advances (c c' : Core σ) : Prop where
  moves : c'.pipelineFull = false ∨ c'.pc = c.pc + 4 ∧ c'.pipelineFull = c.pipelineFull
  dirty : c'.excpDirty = c.excpDirty

theorem Keeps.nextInst {c c' : Core σ} (keeps : Keeps True c c') : Advances c c'.nextInst := by
  refine ⟨.inr ⟨?_, keeps.full⟩, keeps.dirty⟩
  rw [Core.nextInst, Core.write_pc_self, keeps.pc trivial]

theorem Keeps.finish {c c' : Core σ} {jump : Prop} [Decidable jump] (keeps : Keeps (¬jump) c c') :
    Advances c (if jump then c'.resetPipeline else c'.nextInst) := by
  split
  · exact ⟨.inl rfl, keeps.dirty⟩
  · rename_i hjump
    exact (keeps.weaken fun _ => hjump).nextInst

section
variable {aica : AicaSys σ} {inst : UInt32} {c c' : Core σ} {stay : Prop}

theorem Keeps.dataStatus {kind : DataKind} {flags : Flags}
    (h : dataStatus kind inst flags c = some c') : Keeps stay c c' := by
  simp only [Arm7.dataStatus] at h
  split at h
  · cases h
    exact write (fun _ => by decide) _
  split at h
  · obtain ⟨i, -, rfl⟩ := map_eq_some_iff.mp h
    exact write (fun _ => by decide) _
  split at h
  · cases h
  · cases h
    exact Keeps.refl c

theorem instData_advances {op : DataOp} (h : instData op inst c = some c') : Advances c c' := by
  obtain ⟨⟨input1, input2, cOut⟩, -, h⟩ := bind_eq_some_iff.mp h
  obtain ⟨c1, hstatus, h⟩ := bind_eq_some_iff.mp h
  simp only [dataResult] at h
  split at h
  · obtain ⟨c2, hset, rfl⟩ := map_eq_some_iff.mp h
    exact ((Keeps.dataStatus hstatus).trans (Keeps.set hset)).finish
  · cases h
    exact (Keeps.dataStatus hstatus).nextInst

theorem Keeps.branchLink (h : branchLink inst c = some c') : Keeps stay c c' := by
  unfold Arm7.branchLink at h
  split at h
  · exact (set h).weaken fun _ => by decide
  · cases h
    exact Keeps.refl c

theorem instBranch_advances (h : instBranch inst c = some c') : Advances c c' := by
  obtain ⟨c1, hlink, h⟩ := bind_eq_some_iff.mp h
  cases h
  have hkeep : Keeps True c c1 := Keeps.branchLink hlink
  exact ⟨.inl rfl, hkeep.dirty⟩

variable {addr : UInt32} {s s' : UInt32 × Core σ}

theorem Keeps.ldrStrStore {addr' : UInt32} (h : ldrStrStore aica inst addr c = some (addr', c')) :
    Keeps stay c c' := by
  obtain ⟨val, -, h⟩ := bind_eq_some_iff.mp h
  split at h
  · obtain ⟨d, hw, hd⟩ := map_eq_some_iff.mp h
    cases hd
    exact write8 hw
  · obtain ⟨d, hw, hd⟩ := map_eq_some_iff.mp h
    cases hd
    exact write32 hw

theorem Keeps.ldrStrLoad {addr' : UInt32} (h : ldrStrLoad aica inst addr c = some (addr', c')) :
    Keeps (regField inst 12 ≠ 15) c c' := by
  simp only [Arm7.ldrStrLoad] at h
  split at h
  · obtain ⟨⟨val, d⟩, hr, h⟩ := bind_eq_some_iff.mp h
    obtain ⟨e, hset, he⟩ := map_eq_some_iff.mp h
    cases he
    exact (read8 hr).trans (set hset)
  · obtain ⟨⟨val, d⟩, hr, h⟩ := bind_eq_some_iff.mp h
    obtain ⟨e, hset, he⟩ := map_eq_some_iff.mp h
    cases he
    exact (read32 hr).trans (set hset)

theorem Keeps.ldrStrWriteback {offs : UInt32} (h : ldrStrWriteback inst addr c offs = some c') :
    Keeps stay c c' := by
  simp only [Arm7.ldrStrWriteback] at h
  split at h
  · cases h
  split at h
  · cases h
    exact Keeps.refl c
  split at h
  · cases h
  · rename_i hrn
    exact (set h).weaken fun _ => hrn

theorem instLdrStr_advances (h : instLdrStr aica inst c = some c') : Advances c c' := by
  obtain ⟨offs, -, h⟩ := bind_eq_some_iff.mp h
  obtain ⟨base, -, h⟩ := bind_eq_some_iff.mp h
  obtain ⟨⟨addr, c1⟩, haccess, h⟩ := bind_eq_some_iff.mp h
  obtain ⟨c2, hback, h⟩ := bind_eq_some_iff.mp h
  cases h
  refine Keeps.finish (Keeps.trans ?_ (Keeps.ldrStrWriteback hback))
  unfold ldrStrAccess at haccess
  split at haccess
  · rename_i hload
    exact (Keeps.ldrStrLoad haccess).weaken (by simp [hload])
  · exact Keeps.ldrStrStore haccess

theorem Keeps.blockStep {pre up : Bool} {access : UInt32 → Core σ → Option (Core σ)}
    (each : ∀ addr d d', access addr d = some d' → Keeps stay d d')
    (h : blockStep pre up access s = some s') : Keeps stay s.2 s'.2 := by
  obtain ⟨d, haccess, h⟩ := bind_eq_some_iff.mp h
  cases h
  exact each _ _ _ haccess

theorem Keeps.blockLoop {pre up : Bool} {access : Nat → UInt32 → Core σ → Option (Core σ)}
    {regList : UInt32} {order : List Nat}
    (each : ∀ n, bit regList (UInt32.ofNat n) = true → ∀ addr d d', access n addr d = some d' → Keeps stay d d')
    (h : blockLoop pre up access regList order s = some s') : Keeps stay s.2 s'.2 := by
  unfold Arm7.blockLoop at h
  induction order generalizing s with
  | nil =>
    cases h
    exact Keeps.refl _
  | cons n order ih =>
    rw [List.foldlM_cons] at h
    obtain ⟨t, ht, h⟩ := bind_eq_some_iff.mp h
    refine Keeps.trans ?_ (ih h)
    split at ht
    · rename_i hbit
      exact Keeps.blockStep (each n hbit) ht
    · cases ht
      exact Keeps.refl _

theorem Keeps.blockLoad {n : Nat} (h : blockLoad aica n addr c = some c') :
    Keeps (n ≠ 15) c c' := by
  obtain ⟨⟨val, d⟩, hr, hset⟩ := bind_eq_some_iff.mp h
  exact (read32 hr).trans (set hset)

theorem Keeps.blockStore {n : Nat} (h : blockStore aica n addr c = some c') : Keeps stay c c' := by
  unfold Arm7.blockStore at h
  split at h
  · exact write32 h
  · obtain ⟨val, -, h⟩ := bind_eq_some_iff.mp h
    exact write32 h

theorem Keeps.blockLoadPc {force : Bool} (h : blockLoadPc aica force addr c = some c') :
    Keeps False c c' := by
  obtain ⟨d, hstatus, h⟩ := bind_eq_some_iff.mp h
  obtain ⟨⟨val, e⟩, hr, h⟩ := bind_eq_some_iff.mp h
  cases h
  refine Keeps.trans ?_ ((read32 hr).trans (write nofun val))
  unfold blockStatus at hstatus
  split at hstatus
  · obtain ⟨i, -, rfl⟩ := map_eq_some_iff.mp hstatus
    exact write nofun _
  · cases hstatus
    exact Keeps.refl c

theorem Keeps.blockXferLoop (h : blockXferLoop aica inst s = some s') :
    Keeps (¬(bit inst 20 && bit (inst &&& 0xffff) 15) = true) s.2 s'.2 := by
  -- R15 is loaded only if it is listed, and then the instruction jumps.
  have hload : bit inst 20 = true → ∀ n, bit (inst &&& 0xffff) (UInt32.ofNat n) = true →
      ∀ addr d d', Arm7.blockLoad aica n addr d = some d' →
        Keeps (¬(bit inst 20 && bit (inst &&& 0xffff) 15) = true) d d' := by
    intro hl n hbit addr d d' hd
    refine (Keeps.blockLoad hd).weaken ?_
    rintro stay rfl
    exact stay (by rw [hl]; exact hbit)
  simp only [Arm7.blockXferLoop] at h
  split at h
  · split at h
    · rename_i hl
      obtain ⟨t, ht, h⟩ := bind_eq_some_iff.mp h
      refine (Keeps.blockLoop (hload hl) ht).trans ?_
      split at h
      · rename_i hpc
        refine (Keeps.blockStep (fun _ _ _ => Keeps.blockLoadPc) h).weaken fun stay => stay ?_
        rw [hl, hpc]
        rfl
      · cases h
        exact Keeps.refl _
    · split at h
      · cases h
      · exact Keeps.blockLoop (fun _ _ _ _ _ => Keeps.blockStore) h
  · split at h
    · cases h
    split at h
    · rename_i hl
      exact Keeps.blockLoop (hload hl) h
    · exact Keeps.blockLoop (fun _ _ _ _ _ => Keeps.blockStore) h

theorem blockXfer_advances (h : blockXfer aica inst c = some c') : Advances c c' := by
  simp only [blockXfer] at h
  split at h
  · cases h
  split at h
  · cases h
  rename_i hrn
  split at h
  · cases h
  split at h
  · cases h
  obtain ⟨baseIdx, hbase, h⟩ := bind_eq_some_iff.mp h
  split at h
  · cases h
  obtain ⟨⟨base, c1⟩, hloop, h⟩ := bind_eq_some_iff.mp h
  cases h
  obtain ⟨mode, rfl⟩ := Core.genReg_some hbase
  refine Keeps.finish ((Keeps.blockXferLoop hloop).trans ?_)
  split
  · exact Keeps.write (fun _ => genReg_ne_pc mode hrn) _
  · exact Keeps.refl _

theorem Keeps.instMrs (h : instMrs inst c = some c') :
    ∃ c1, c' = c1.nextInst ∧ Keeps (regField inst 12 ≠ 15) c c1 := by
  obtain ⟨src, -, h⟩ := bind_eq_some_iff.mp h
  obtain ⟨c1, hset, h⟩ := bind_eq_some_iff.mp h
  cases h
  exact ⟨c1, rfl, set hset⟩

theorem psrIdx_ne_pc {i : Nat} (h : psrIdx inst c = some i) : i ≠ regPc := by
  unfold psrIdx at h
  split at h
  · exact Core.spsrIdx_ne_pc h
  · cases h
    decide

theorem instMsr_advances (h : instMsr inst c = some c') : Advances c c' := by
  obtain ⟨dst, hdst, h⟩ := bind_eq_some_iff.mp h
  obtain ⟨val, -, h⟩ := bind_eq_some_iff.mp h
  cases h
  exact (Keeps.write (fun _ => psrIdx_ne_pc hdst) val).nextInst

theorem instMul_advances (h : instMul inst c = some c') : Advances c c' := by
  simp only [instMul] at h
  split at h
  · cases h
  split at h
  · cases h
  rename_i hregs
  obtain ⟨val, -, h⟩ := bind_eq_some_iff.mp h
  obtain ⟨c1, hset, h⟩ := bind_eq_some_iff.mp h
  cases h
  have hrd : regField inst 16 ≠ 15 := fun hrd => hregs (.inl hrd)
  refine Keeps.nextInst (((Keeps.set hset).weaken fun _ => hrd).trans ?_)
  split
  · exact Keeps.write (fun _ => by decide) _
  · exact Keeps.refl _

end

namespace DecodedInst

variable (d : DecodedInst) (c : Core σ)

def executesSwi : Bool := d.cond.holds c.cpsr && d.op == .swi

def mrsToPc : Bool := d.cond.holds c.cpsr && d.op == .mrs && regField d.inst 12 == 15

end DecodedInst

section
variable {aica : AicaSys σ} {d : DecodedInst} {c c' : Core σ}

theorem exec_moves (h : exec aica d c = some c') (notMrs : d.mrsToPc c = false) :
    c'.pipelineFull = false ∨ c'.pc = c.pc + 4 ∧ c'.pipelineFull = c.pipelineFull ∨
      c' = instSwi c := by
  have of_advances : Advances c c' → c'.pipelineFull = false ∨
      c'.pc = c.pc + 4 ∧ c'.pipelineFull = c.pipelineFull ∨ c' = instSwi c :=
    fun adv => adv.moves.imp_right .inl
  unfold exec at h
  split at h
  · rename_i hcond
    obtain ⟨cond, op, inst, cycles⟩ := d
    cases op with
    | branch => exact of_advances (instBranch_advances h)
    | ldrStr => exact of_advances (instLdrStr_advances h)
    | blockXfer => exact of_advances (blockXfer_advances h)
    | mrs =>
      obtain ⟨c1, rfl, hkeep⟩ := Keeps.instMrs h
      have hrd : regField inst 12 ≠ 15 := by
        simp only [DecodedInst.mrsToPc, hcond] at notMrs
        simpa using notMrs
      exact of_advances (hkeep.weaken fun _ => hrd).nextInst
    | msr => exact of_advances (instMsr_advances h)
    | mul => exact of_advances (instMul_advances h)
    | swi => exact .inr (.inr (Option.some.inj h).symm)
    | data op => exact of_advances (instData_advances h)
  · cases h
    exact of_advances (Keeps.refl c).nextInst

theorem exec_excpDirty (h : exec aica d c = some c') :
    c'.excpDirty = (c.excpDirty || d.executesSwi c) := by
  have of_same : d.executesSwi c = false → c'.excpDirty = c.excpDirty →
      c'.excpDirty = (c.excpDirty || d.executesSwi c) := by
    intro hswi hsame
    rw [hsame, hswi, Bool.or_false]
  unfold exec at h
  split at h
  · rename_i hcond
    obtain ⟨cond, op, inst, cycles⟩ := d
    cases op with
    | branch => exact of_same (by simp [DecodedInst.executesSwi]) (instBranch_advances h).dirty
    | ldrStr => exact of_same (by simp [DecodedInst.executesSwi]) (instLdrStr_advances h).dirty
    | blockXfer => exact of_same (by simp [DecodedInst.executesSwi]) (blockXfer_advances h).dirty
    | mrs =>
      obtain ⟨c1, rfl, hkeep⟩ := Keeps.instMrs h
      exact of_same (by simp [DecodedInst.executesSwi]) hkeep.dirty
    | msr => exact of_same (by simp [DecodedInst.executesSwi]) (instMsr_advances h).dirty
    | mul => exact of_same (by simp [DecodedInst.executesSwi]) (instMul_advances h).dirty
    | swi =>
      cases h
      simp only [DecodedInst.executesSwi, hcond, instSwi]
      simp
    | data op => exact of_same (by simp [DecodedInst.executesSwi]) (instData_advances h).dirty
  · rename_i hcond
    cases h
    exact of_same (by simp [DecodedInst.executesSwi, hcond]) rfl

theorem decode_inst {word : UInt32} (h : decode word = some d) : d.inst = word := by
  obtain ⟨op, -, rfl⟩ := map_eq_some_iff.mp h
  rfl

end

/-! ## The core as a machine -/

inductive Action
  | line (call : LineCall)
  | inst

/-- An executed instruction: its address, the word, the core after the fetch and after the
execution. -/
structure Executed (σ : Type) where
  addr : UInt32
  inst : UInt32
  fetched : Core σ
  done : Core σ

namespace Executed

variable (e : Executed σ)

def isSwi : Bool := (decode e.inst).any (·.executesSwi e.fetched)

def isMrsToPc : Bool := (decode e.inst).any (·.mrsToPc e.fetched)

end Executed

inductive Event (σ : Type)
  | line (call : LineCall) (enabled : Bool)
  | inst (e : Executed σ)

def Cpu.step (aica : AicaSys σ) (p : Cpu σ) : Action → Option (Event σ × Cpu σ)
  | .line call => some (.line call p.enabled, { p with toCore := p.toCore.call call })
  | .inst => do
    let (d, q) ← p.fetchInst
    let c ← exec aica d q.toCore
    some (.inst ⟨p.checkExcp.pcNext, d.inst, q.toCore, c⟩, { q with toCore := c })

/-! ## Small machines -/

def noAica : AicaSys Unit where
  read8 _ _ := none
  read32 _ _ := none
  write8 _ _ _ := none
  write32 _ _ _ := none

/-- A core in supervisor mode, with interrupts masked, about to fetch the first of the words. -/
def bootCpu (reg : Nat → UInt32) (words : List UInt32) : Cpu Unit where
  reg i := if i = regCpsr then 0xd3 else reg i
  excp := ⟨false, false⟩
  enabled := true
  fiqLine := false
  excpDirty := false
  pipelineFull := false
  mem := ⟨fun a => (words.getD (a / 4) 0 >>> (8 * UInt32.ofNat (a % 4))).toUInt8, ()⟩
  pipeline0 := 0
  pipelinePc0 := 0
  pipeline1 := 0
  pipelinePc1 := 0

end Arm7

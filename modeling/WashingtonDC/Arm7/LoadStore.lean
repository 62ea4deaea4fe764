import WashingtonDC.Arm7.Shifter

/-!
# Single data transfers of the ARM7 core

What `arm7_inst_ldr_str` does to the base register, and which words and bytes it transfers, for
every offset, addressing mode and base. The destination is another register than the base. What the
registers of the AICA do with an access is not described, and neither are the cycles.
-/
namespace Arm7

open Option Nat
open BarrelShift (Kind)

variable {σ : Type} {aica : AicaSys σ} {inst addr : UInt32} {c c₁ c' : Core σ}

/-! ## The architecture -/

/-- The offset is an immediate value or a register shifted by an immediate amount. -/
def transferOffset (inst : UInt32) (c : Core σ) : Option UInt32 :=
  if bit inst 25 then
    (c.get (regField inst 0)).map fun val =>
      (barrelShifter (shiftKind inst) val (c.cpsr &&& cMask != 0)
        (.immediate ((inst >>> 7) &&& 0x1f).toNat)).1
  else some (inst &&& 0xfff)

def wordStore (inst : UInt32) : Bool := !bit inst 20 && !bit inst 22

/-- The address as far as the transfer depends on it: the store of a word does not depend on the two
lower bits. -/
def accessAddr (inst addr : UInt32) : UInt32 := if wordStore inst then addr &&& ~~~3 else addr

def transferAddr (inst base offs : UInt32) : UInt32 :=
  if bit inst 24 then ldrStrMove inst base offs else base

/-- The base is written back if the offset is applied after the transfer, or if the W bit says
so. -/
def writesBack (inst : UInt32) : Bool := !bit inst 24 || bit inst 21

def baseAfter (inst base offs : UInt32) : UInt32 :=
  if writesBack inst then ldrStrMove inst base offs else base

/-- A transfer at an address. Words are accessed at the address without its two lower bits, which
rotate a word that is loaded; R15 is stored as four more than it reads. -/
inductive Transfers (aica : AicaSys σ) (inst addr : UInt32) (c c' : Core σ) : Prop
  | loadByte (val : UInt8) (c₁ : Core σ) (load : bit inst 20 = true) (byte : bit inst 22 = true)
      (read : memoryMapRead8 aica addr c = some (val, c₁)) (mem : c'.mem = c₁.mem)
      (loaded : c'.get (regField inst 12) = some val.toUInt32)
  | loadWord (val : UInt32) (c₁ : Core σ) (load : bit inst 20 = true) (word : bit inst 22 = false)
      (read : memoryMapRead32 aica (addr &&& ~~~3) c = some (val, c₁)) (mem : c'.mem = c₁.mem)
      (loaded : c'.get (regField inst 12) =
        some ⟨val.toBitVec.rotateRight (8 * (addr.toNat % 4))⟩)
  | storeByte (val : UInt32) (c₁ : Core σ) (store : bit inst 20 = false)
      (byte : bit inst 22 = true) (stored : c.get (regField inst 12) = some val)
      (write : memoryMapWrite8 aica addr c
        (val + if regField inst 12 = 15 then 4 else 0).toUInt8 = some c₁)
      (mem : c'.mem = c₁.mem)
  | storeWord (val : UInt32) (c₁ : Core σ) (store : bit inst 20 = false)
      (word : bit inst 22 = false) (stored : c.get (regField inst 12) = some val)
      (write : memoryMapWrite32 aica (addr &&& ~~~3) c
        (val + if regField inst 12 = 15 then 4 else 0) = some c₁)
      (mem : c'.mem = c₁.mem)

/-! ## Words that are not aligned -/

theorem or_shifts_eq_rotateRight (val : UInt32) {r l : UInt32} (lt : r.toNat < 32)
    (sum : r.toNat + l.toNat = 32) (pos : 0 < r.toNat) :
    (val >>> r) ||| (val <<< l) = ⟨val.toBitVec.rotateRight r.toNat⟩ := by
  have hr : r.toNat % 32 = r.toNat := mod_eq_of_lt lt
  have hl : l.toNat % 32 = 32 - r.toNat := by omega
  apply ofBitVec_eq
  rw [UInt32.toBitVec_or, toBitVec_shr, toBitVec_shl, Kind.value_lsr, Kind.value_lsl,
    BitVec.rotateRight_def, hr, hl]

theorem shiftRight_and_mask (val : UInt32) {r : UInt32} (le : 8 ≤ r.toNat) (lt : r.toNat < 32) :
    (val >>> r) &&& 0xffffff = val >>> r := by
  apply UInt32.toNat_inj.mp
  rw [WordMask.toNat_and_low _ (i := 24) rfl, UInt32.toNat_shiftRight, mod_eq_of_lt lt,
    shiftRight_eq_div_pow]
  apply mod_eq_of_lt
  calc val.toNat / 2 ^ r.toNat ≤ val.toNat / 2 ^ 8 :=
        div_le_div_left (Nat.pow_le_pow_right (by decide) le) (by decide)
    _ < 2 ^ 24 := by
        have := val.toNat_lt
        omega

theorem rotateLoaded_eq (addr val : UInt32) :
    rotateLoaded addr val = ⟨val.toBitVec.rotateRight (8 * (addr.toNat % 4))⟩ := by
  have hmod : (addr % 4).toNat = addr.toNat % 4 := UInt32.toNat_mod addr 4
  rw [rotateLoaded, hmod]
  split
  case h_1 h | h_2 h | h_3 h =>
    rw [h, shiftRight_and_mask val (by decide) (by decide)]
    exact or_shifts_eq_rotateRight val (by decide) (by decide) (by decide)
  case h_4 h3 h2 h1 =>
    have hne3 : addr.toNat % 4 ≠ 3 := h3
    have hne2 : addr.toNat % 4 ≠ 2 := h2
    have hne1 : addr.toNat % 4 ≠ 1 := h1
    have hzero : addr.toNat % 4 = 0 := by omega
    rw [hzero, BarrelShift.rotateRight_zero]

theorem align_eq_iff (x : UInt32) : x &&& ~~~3 = x ↔ x.toNat % 4 = 0 := by
  rw [← UInt32.toNat_inj, WordMask.toNat_and_high (i := 2) rfl]
  omega

theorem ldrStrMove_inj {a b offs : UInt32} :
    ldrStrMove inst a offs = ldrStrMove inst b offs ↔ a = b := by
  unfold ldrStrMove
  split
  · exact add_left_inj offs
  · exact sub_left_inj

/-! ## Transfers -/

theorem Transfers.transport (h : Transfers aica inst addr c c₁) (mem : c'.mem = c₁.mem)
    (reg : bit inst 20 = true → c'.get (regField inst 12) = c₁.get (regField inst 12)) :
    Transfers aica inst addr c c' := by
  cases h with
  | loadByte val c₂ load byte read mem₁ loaded =>
    exact .loadByte val c₂ load byte read (mem.trans mem₁) ((reg load).trans loaded)
  | loadWord val c₂ load word read mem₁ loaded =>
    exact .loadWord val c₂ load word read (mem.trans mem₁) ((reg load).trans loaded)
  | storeByte val c₂ store byte stored write mem₁ =>
    exact .storeByte val c₂ store byte stored write (mem.trans mem₁)
  | storeWord val c₂ store word stored write mem₁ =>
    exact .storeWord val c₂ store word stored write (mem.trans mem₁)

theorem Transfers.of_accessAddr {addr' : UInt32} (h : Transfers aica inst addr c c')
    (same : accessAddr inst addr = accessAddr inst addr') : Transfers aica inst addr' c c' := by
  have hload : bit inst 20 = true ∨ bit inst 22 = true → addr = addr' := by
    rintro (hbit | hbit) <;> simpa [accessAddr, wordStore, hbit] using same
  cases h with
  | loadByte val c₁ load byte read mem loaded =>
    cases hload (.inl load)
    exact .loadByte val c₁ load byte read mem loaded
  | loadWord val c₁ load word read mem loaded =>
    cases hload (.inl load)
    exact .loadWord val c₁ load word read mem loaded
  | storeByte val c₁ store byte stored write mem =>
    cases hload (.inr byte)
    exact .storeByte val c₁ store byte stored write mem
  | storeWord val c₁ store word stored write mem =>
    have haddr : addr &&& ~~~3 = addr' &&& ~~~3 := by
      simpa [accessAddr, wordStore, store, word] using same
    exact .storeWord val c₁ store word stored (haddr ▸ write) mem

section
variable {mode : Mode} {addr' : UInt32}

/-- What a load or a store has done before the base is written back. The store of a word also
clears the two lower bits of the address, which the write-back uses. -/
structure Accessed (aica : AicaSys σ) (mode : Mode) (inst addr : UInt32) (c : Core σ)
    (addr' : UInt32) (c₁ : Core σ) : Prop where
  addr_eq : addr' = accessAddr inst addr
  cpsr : c₁.cpsr = c.cpsr
  reg : ∀ i, i ≠ mode.genReg (regField inst 12) → c₁.reg i = c.reg i
  transfers : Transfers aica inst addr c c₁

theorem cpsr_of_reg (reg : c₁.reg = c.reg) : c₁.cpsr = c.cpsr := congrFun reg regCpsr

theorem load_frame (hmode : modeOf c.cpsr = some mode) (reg : c₁.reg = c.reg) {val : UInt32}
    (hset : c₁.set (regField inst 12) val = some c') :
    c'.cpsr = c.cpsr ∧ (∀ i, i ≠ mode.genReg (regField inst 12) → c'.reg i = c.reg i) ∧
      c'.mem = c₁.mem ∧ c'.get (regField inst 12) = some val := by
  have hmode₁ : modeOf c₁.cpsr = some mode := by rw [cpsr_of_reg reg, hmode]
  rw [Core.set_of_mode hmode₁] at hset
  cases hset
  refine ⟨?_, ?_, rfl, Core.get_write_self hmode₁ (regField_lt _ _) val⟩
  · rw [Core.write_genReg_cpsr _ _ (regField_lt _ _), cpsr_of_reg reg]
  · intro i hi
    rw [Core.write_reg, if_neg hi, reg]

theorem ldrStrLoad_accessed (hmode : modeOf c.cpsr = some mode) (load : bit inst 20 = true)
    (h : ldrStrLoad aica inst addr c = some (addr', c')) :
    Accessed aica mode inst addr c addr' c' := by
  simp only [ldrStrLoad] at h
  split at h
  · rename_i hbyte
    obtain ⟨⟨val, c₁⟩, hread, h⟩ := bind_eq_some_iff.mp h
    obtain ⟨c₂, hset, heq⟩ := map_eq_some_iff.mp h
    cases heq
    obtain ⟨hcpsr, hreg, hmem, hget⟩ := load_frame hmode (read8_reg hread) hset
    exact ⟨by simp [accessAddr, wordStore, load], hcpsr, hreg, .loadByte val c₁ load hbyte hread hmem hget⟩
  · rename_i hword
    obtain ⟨⟨val, c₁⟩, hread, h⟩ := bind_eq_some_iff.mp h
    obtain ⟨c₂, hset, heq⟩ := map_eq_some_iff.mp h
    cases heq
    obtain ⟨hcpsr, hreg, hmem, hget⟩ := load_frame hmode (read32_reg hread) hset
    rw [rotateLoaded_eq] at hget
    exact ⟨by simp [accessAddr, wordStore, load], hcpsr, hreg,
      .loadWord val c₁ load (Bool.not_eq_true _ ▸ hword) hread hmem hget⟩

theorem ldrStrStore_accessed (mode : Mode) (store : bit inst 20 = false)
    (h : ldrStrStore aica inst addr c = some (addr', c')) :
    Accessed aica mode inst addr c addr' c' := by
  obtain ⟨val, hval, h⟩ := bind_eq_some_iff.mp h
  obtain ⟨v, hv, rfl⟩ := map_eq_some_iff.mp hval
  split at h
  · rename_i hbyte
    obtain ⟨c₁, hwrite, heq⟩ := map_eq_some_iff.mp h
    cases heq
    have hreg := write8_reg hwrite
    exact ⟨by simp [accessAddr, wordStore, hbyte], cpsr_of_reg hreg, fun i _ => congrFun hreg i,
      .storeByte v _ store hbyte hv hwrite rfl⟩
  · rename_i hword
    obtain ⟨c₁, hwrite, heq⟩ := map_eq_some_iff.mp h
    cases heq
    have hreg := write32_reg hwrite
    exact ⟨by simp [accessAddr, wordStore, store, hword], cpsr_of_reg hreg, fun i _ => congrFun hreg i,
      .storeWord v _ store (Bool.not_eq_true _ ▸ hword) hv hwrite rfl⟩

theorem ldrStrAccess_accessed (hmode : modeOf c.cpsr = some mode)
    (h : ldrStrAccess aica inst addr c = some (addr', c')) :
    Accessed aica mode inst addr c addr' c' := by
  unfold ldrStrAccess at h
  split at h
  · rename_i hload
    exact ldrStrLoad_accessed hmode hload h
  · rename_i hstore
    exact ldrStrStore_accessed mode (Bool.not_eq_true _ ▸ hstore) h

theorem ldrStrWriteback_some {offs : UInt32} (hmode : modeOf c₁.cpsr = some mode)
    (h : ldrStrWriteback inst addr' c₁ offs = some c') :
    writesBack inst = false ∧ c' = c₁ ∨
      writesBack inst = true ∧ c' = c₁.write (mode.genReg (regField inst 16))
        (if bit inst 24 then addr' else ldrStrMove inst addr' offs) := by
  simp only [ldrStrWriteback] at h
  simp only [writesBack]
  split at h
  · cases h
  split at h
  · rename_i hpre
    cases h
    simp only [Bool.and_eq_true, Bool.not_eq_true'] at hpre
    exact .inl ⟨by simp [hpre], rfl⟩
  split at h
  · cases h
  · rename_i hnone hpre hrn
    rw [Core.set_of_mode hmode] at h
    cases h
    refine .inr ⟨?_, rfl⟩
    cases hbit : bit inst 24 <;> simp_all

end

/-! ## Whole instructions -/

/-- The store of a word at an address that is not aligned, with write-back. -/
def MasksBase (inst base offs : UInt32) : Prop :=
  wordStore inst = true ∧ writesBack inst = true ∧ (transferAddr inst base offs).toNat % 4 ≠ 0

/-- The offset is a register other than zero shifted right by 32 bits, which is given as an amount
of zero. -/
def ShiftsByZero (inst : UInt32) (c : Core σ) : Prop :=
  bit inst 25 = true ∧ shiftKind inst = .lsr ∧ (inst >>> 7) &&& 0x1f = 0 ∧
    c.get (regField inst 0) ≠ some 0

/-- The store of a word for which an offset that should be zero makes no difference, since the two
lower bits of the address are cleared. -/
def MasksOffset (inst base offs : UInt32) : Prop :=
  wordStore inst = true ∧
    if bit inst 24 then
      ldrStrMove inst base offs &&& ~~~3 = if bit inst 21 then base else base &&& ~~~3
    else ldrStrMove inst (base &&& ~~~3) offs = base

/-- What the base is after the transfer, if the code uses this offset. -/
def baseWritten (inst base offs : UInt32) : UInt32 :=
  if writesBack inst then
    if bit inst 24 then accessAddr inst (transferAddr inst base offs)
    else ldrStrMove inst (accessAddr inst (transferAddr inst base offs)) offs
  else base

theorem ldrStrMove_zero (inst base : UInt32) : ldrStrMove inst base 0 = base := by
  unfold ldrStrMove
  split
  · exact UInt32.add_zero base
  · exact UInt32.sub_zero base

theorem ldrStrMove_ne {offs : UInt32} (inst base : UInt32) (ne : offs ≠ 0) :
    ldrStrMove inst base offs ≠ base := by
  unfold ldrStrMove
  split
  · simpa using ne
  · simpa using ne

theorem baseWritten_eq_iff (inst base offs : UInt32) :
    baseWritten inst base offs = baseAfter inst base offs ↔ ¬MasksBase inst base offs := by
  rw [baseWritten, baseAfter, MasksBase]
  cases hback : writesBack inst with
  | false => simp
  | true =>
    have hsame : (if bit inst 24 then accessAddr inst (transferAddr inst base offs)
        else ldrStrMove inst (accessAddr inst (transferAddr inst base offs)) offs) =
        ldrStrMove inst base offs ↔
          accessAddr inst (transferAddr inst base offs) = transferAddr inst base offs := by
      rw [transferAddr]
      split
      · rfl
      · exact ldrStrMove_inj
    rw [if_pos rfl, if_pos rfl, hsame, accessAddr]
    cases wordStore inst <;> simp [align_eq_iff]

/-- With an offset other than zero in place of zero. -/
theorem masksOffset_iff {base offs : UInt32} (ne : offs ≠ 0) :
    accessAddr inst (transferAddr inst base offs) = accessAddr inst (transferAddr inst base 0) ∧
        baseWritten inst base offs = baseAfter inst base 0 ↔ MasksOffset inst base offs := by
  have hmove := ldrStrMove_ne inst base ne
  have hmask : ldrStrMove inst base offs &&& ~~~3 = base → base &&& ~~~3 = base := by
    intro h
    rw [← h, UInt32.and_assoc, UInt32.and_self]
  simp only [accessAddr, transferAddr, baseWritten, baseAfter, writesBack, MasksOffset,
    ldrStrMove_zero, ite_self]
  by_cases hstore : wordStore inst = true
  · by_cases hpre : bit inst 24 = true
    · by_cases hback : bit inst 21 = true
      · simp only [hstore, hpre, hback]
        simp only [if_true, Bool.not_true, Bool.or_true, true_and]
        exact ⟨And.right, fun h => ⟨h.trans (hmask h).symm, h⟩⟩
      · simp [hstore, hpre, hback]
    · simp [hstore, hpre]
  · by_cases hpre : bit inst 24 = true <;> simp [hstore, hpre, hmove]

theorem zeroShift_cases {val offs : UInt32} {carry carry' : Bool}
    (h : (if shiftKind inst = .lsl ∨ shiftKind inst = .lsr then some (val, carry) else none) =
      some (offs, carry')) :
    val = offs ∧ (barrelShifter (shiftKind inst) val carry (.immediate 0)).1 =
      if shiftKind inst = .lsr then 0 else val := by
  split at h
  · rename_i hkind
    cases h
    refine ⟨rfl, ?_⟩
    rcases hkind with hkind | hkind
    · rw [hkind]
      rfl
    · have hout : barrelShifter .lsr val carry (.immediate 0) = (0, val.toBitVec.msb) :=
        shiftBy_lsr_32 val carry
      rw [hkind, hout]
      rfl
  · cases h

theorem transferOffset_cases {offs : UInt32} (h : ldrStrOffset inst c = some offs) :
    ¬ShiftsByZero inst c ∧ transferOffset inst c = some offs ∨
      ShiftsByZero inst c ∧ offs ≠ 0 ∧ transferOffset inst c = some 0 := by
  rw [transferOffset, ShiftsByZero]
  unfold ldrStrOffset at h
  cases hreg : bit inst 25 with
  | false =>
    rw [hreg] at h
    simpa using h
  | true =>
    rw [hreg, if_pos rfl, decodeShiftLdrStr] at h
    obtain ⟨⟨offs', carry'⟩, hshift, rfl⟩ := map_eq_some_iff.mp h
    split at hshift
    · cases hshift
    obtain ⟨val, hval, hshift⟩ := bind_eq_some_iff.mp hshift
    have hlt : ((inst >>> 7) &&& 0x1f).toNat < 32 := by
      rw [WordMask.toNat_and_low _ (i := 5) rfl]
      exact mod_lt _ (by decide)
    rw [if_pos rfl, hval, map_some, Option.some.injEq, ne_eq, Option.some.injEq]
    rcases Nat.eq_zero_or_pos ((inst >>> 7) &&& 0x1f).toNat with hzero | hpos
    · have hamount : (inst >>> 7) &&& 0x1f = 0 := UInt32.toNat_inj.mp hzero
      rw [hamount, doDecodeShift_zero] at hshift
      rw [hamount]
      obtain ⟨rfl, hout⟩ := zeroShift_cases hshift
      rw [show (0 : UInt32).toNat = 0 from rfl, hout]
      by_cases hkind : shiftKind inst = .lsr
      · by_cases hval : val = 0 <;> simp [hkind, hval]
      · simp [hkind]
    · have hamount : (inst >>> 7) &&& 0x1f ≠ 0 := fun hzero => by
        rw [hzero] at hpos
        exact absurd hpos (by decide)
      rw [doDecodeShift_small hpos hlt] at hshift
      have hbits : 0 < (Amount.immediate ((inst >>> 7) &&& 0x1f).toNat).bits := hpos
      rw [barrelShifter_pos _ _ _ hbits]
      cases hshift
      exact .inl ⟨fun hzero => hamount hzero.2.2.1, rfl⟩

/-! How an instruction that may load R15 ends. -/

theorem finish_mem (load : Bool) (rd : Nat) :
    (if load && rd == 15 then c.resetPipeline else c.nextInst).mem = c.mem := by
  split <;> rfl

theorem finish_get (load : Bool) {rd n : Nat} (ne : n ≠ 15) :
    (if load && rd == 15 then c.resetPipeline else c.nextInst).get n = c.get n := by
  split
  · rfl
  · exact c.get_nextInst ne

theorem finish_get_loaded (rd : Nat) :
    (if true && rd == 15 then c.resetPipeline else c.nextInst).get rd = c.get rd := by
  by_cases hpc : rd = 15
  · subst hpc
    rfl
  · exact finish_get true hpc

/-- Every transfer is at the address that the base and the offset of the code give, and a word
loaded from an address that is not aligned is rotated. This is the transfer of the architecture, and
the base afterwards is that of the architecture, exactly in two cases: the offset is not a right
shift by 32 bits, and no word is stored with write-back at an address that is not aligned; or it is
such a shift, and makes no difference to a word that is stored. -/
theorem instLdrStr_transfers (aica : AicaSys σ) (inst : UInt32) (c c' : Core σ)
    (accepted : instLdrStr aica inst c = some c') (notPc : regField inst 16 ≠ 15)
    (apart : regField inst 12 ≠ regField inst 16) :
    ∃ base offs spec, c.get (regField inst 16) = some base ∧ ldrStrOffset inst c = some offs ∧
      transferOffset inst c = some spec ∧
      Transfers aica inst (transferAddr inst base offs) c c' ∧
      (accessAddr inst (transferAddr inst base offs) = accessAddr inst (transferAddr inst base spec) →
        Transfers aica inst (transferAddr inst base spec) c c') ∧
      (accessAddr inst (transferAddr inst base offs) = accessAddr inst (transferAddr inst base spec) ∧
          c'.get (regField inst 16) = some (baseAfter inst base spec) ↔
        ¬ShiftsByZero inst c ∧ ¬MasksBase inst base offs ∨
          ShiftsByZero inst c ∧ MasksOffset inst base offs) := by
  obtain ⟨offs, hoffs, h⟩ := bind_eq_some_iff.mp accepted
  obtain ⟨base, hbase, h⟩ := bind_eq_some_iff.mp h
  obtain ⟨⟨addr', c₁⟩, haccess, h⟩ := bind_eq_some_iff.mp h
  obtain ⟨c₂, hback, h⟩ := bind_eq_some_iff.mp h
  cases h
  obtain ⟨mode, hmode, hreg⟩ := Core.exists_mode hbase
  have haccessed := ldrStrAccess_accessed hmode haccess
  have hmode₁ : modeOf c₁.cpsr = some mode := by rw [haccessed.cpsr, hmode]
  have hbase₁ : c₁.get (regField inst 16) = some base := by
    have hplace : mode.genReg (regField inst 16) ≠ mode.genReg (regField inst 12) := fun hsame =>
      apart (mode.genReg_inj (regField_lt _ _) (regField_lt _ _) hsame.symm)
    rw [Core.get_of_mode hmode₁, haccessed.reg _ hplace, hreg]
  have htransfers : Transfers aica inst (transferAddr inst base offs) c
      (if bit inst 20 && regField inst 12 == 15 then c₂.resetPipeline else c₂.nextInst) := by
    apply haccessed.transfers.transport
    · rw [finish_mem]
      rcases ldrStrWriteback_some hmode₁ hback with ⟨-, rfl⟩ | ⟨-, rfl⟩
      · rfl
      · rfl
    · intro load
      rw [load, finish_get_loaded]
      rcases ldrStrWriteback_some hmode₁ hback with ⟨-, rfl⟩ | ⟨-, rfl⟩
      · rfl
      · exact Core.get_write_ne hmode₁ (regField_lt _ _) (regField_lt _ _) apart _
  have hwritten : c₂.get (regField inst 16) = some (baseWritten inst base offs) := by
    rcases ldrStrWriteback_some hmode₁ hback with ⟨hstay, rfl⟩ | ⟨hwrite, rfl⟩
    · rw [hbase₁, baseWritten, hstay]
      rfl
    · rw [Core.get_write_self hmode₁ (regField_lt _ _), haccessed.addr_eq, baseWritten, hwrite]
      rfl
  rw [finish_get _ notPc, hwritten]
  rcases transferOffset_cases hoffs with ⟨hshift, hspec⟩ | ⟨hshift, hne, hspec⟩
  · refine ⟨base, offs, offs, hbase, hoffs, hspec, htransfers, fun _ => htransfers, ?_⟩
    simp [hshift, baseWritten_eq_iff]
  · refine ⟨base, offs, 0, hbase, hoffs, hspec, htransfers, htransfers.of_accessAddr, ?_⟩
    simp only [hshift, not_true, false_and, false_or, true_and, Option.some.injEq,
      masksOffset_iff hne]

/-- STR R1, [R0], #4 at an aligned base. -/
theorem instLdrStr_transfers_aligned :
    ∃ c', instLdrStr noAica 0xe4801004 (bootCpu (fun _ => 0x1000) []).toCore = some c' ∧
      c'.get 0 = some 0x1004 := by
  refine ⟨_, rfl, ?_⟩
  obtain ⟨base, offs, spec, hbase, hoffs, hspec, -, -, hiff⟩ :=
    instLdrStr_transfers noAica 0xe4801004 (bootCpu (fun _ => 0x1000) []).toCore _ rfl (by decide)
      (by decide)
  cases hbase
  cases hoffs
  cases hspec
  have hshift : ¬ShiftsByZero 0xe4801004 (bootCpu (fun _ => 0x1000) []).toCore :=
    fun shifts => absurd shifts.1 (by decide)
  exact (hiff.mpr (.inl ⟨hshift, fun masks => masks.2.2 (by decide)⟩)).2

/-- STR R1, [R0], #4 with a base of 0x1001 leaves 0x1004 in R0. LDR R1, [R0, R2, LSR #32] with 4 in
R2 loads from four bytes after the base. -/
theorem instLdrStr_differs :
    ((instLdrStr noAica 0xe4801004 (bootCpu (fun _ => 0x1001) []).toCore).bind (·.get 0) =
        some 0x1004 ∧
      baseAfter 0xe4801004 0x1001 4 = 0x1005) ∧
      ldrStrOffset 0xe7901022 (bootCpu (fun _ => 4) []).toCore = some 4 ∧
      transferOffset 0xe7901022 (bootCpu (fun _ => 4) []).toCore = some 0 := by
  decide +kernel

end Arm7

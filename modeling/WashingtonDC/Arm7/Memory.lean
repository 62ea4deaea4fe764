import WashingtonDC.Arm7.Registers

/-!
# The memory of the ARM7 core

What an access through the memory map can change, at any address, and what it does in wave memory,
which is seen four times in the lower 8 megabytes. The registers of the AICA are a parameter of the
model and nothing is said about them.
-/
namespace Arm7

variable {σ : Type} {aica : AicaSys σ} {addr : UInt32} {c c' : Core σ}

/-! ## Any address -/

variable {val : UInt32}

theorem read32_frame (h : memoryMapRead32 aica addr c = some (val, c')) :
    ∃ mem, c' = { c with mem } := by
  unfold memoryMapRead32 at h
  split at h
  · obtain ⟨v, -, hv⟩ := Option.map_eq_some_iff.mp h
    cases hv
    exact ⟨c.mem, rfl⟩
  split at h
  · obtain ⟨r, -, hr⟩ := Option.map_eq_some_iff.mp h
    cases hr
    exact ⟨_, rfl⟩
  · cases h
    exact ⟨c.mem, rfl⟩

theorem read8_frame {val : UInt8} (h : memoryMapRead8 aica addr c = some (val, c')) :
    ∃ mem, c' = { c with mem } := by
  unfold memoryMapRead8 at h
  split at h
  · cases h
    exact ⟨c.mem, rfl⟩
  split at h
  · obtain ⟨r, -, hr⟩ := Option.map_eq_some_iff.mp h
    cases hr
    exact ⟨_, rfl⟩
  · cases h
    exact ⟨c.mem, rfl⟩

theorem write32_frame (h : memoryMapWrite32 aica addr c val = some c') :
    ∃ mem clears, c' = c.afterWrite mem clears := by
  unfold memoryMapWrite32 at h
  split at h
  · split at h
    · cases h
      exact ⟨_, false, rfl⟩
    · cases h
  split at h
  · obtain ⟨r, -, hr⟩ := Option.map_eq_some_iff.mp h
    exact ⟨_, _, hr.symm⟩
  · cases h
    exact ⟨c.mem, false, rfl⟩

theorem write8_frame {val : UInt8} (h : memoryMapWrite8 aica addr c val = some c') :
    ∃ mem clears, c' = c.afterWrite mem clears := by
  unfold memoryMapWrite8 at h
  split at h
  · cases h
    exact ⟨_, false, rfl⟩
  split at h
  · obtain ⟨r, -, hr⟩ := Option.map_eq_some_iff.mp h
    exact ⟨_, _, hr.symm⟩
  · cases h
    exact ⟨c.mem, false, rfl⟩

@[simp] theorem Core.afterWrite_reg (c : Core σ) (mem : Mem σ) (clears : Bool) :
    (c.afterWrite mem clears).reg = c.reg := by
  unfold Core.afterWrite
  split <;> rfl

theorem read32_reg (h : memoryMapRead32 aica addr c = some (val, c')) : c'.reg = c.reg := by
  obtain ⟨mem, rfl⟩ := read32_frame h
  rfl

theorem read8_reg {val : UInt8} (h : memoryMapRead8 aica addr c = some (val, c')) :
    c'.reg = c.reg := by
  obtain ⟨mem, rfl⟩ := read8_frame h
  rfl

theorem write32_reg (h : memoryMapWrite32 aica addr c val = some c') : c'.reg = c.reg := by
  obtain ⟨mem, clears, rfl⟩ := write32_frame h
  exact c.afterWrite_reg mem clears

theorem write8_reg {val : UInt8} (h : memoryMapWrite8 aica addr c val = some c') :
    c'.reg = c.reg := by
  obtain ⟨mem, clears, rfl⟩ := write8_frame h
  exact c.afterWrite_reg mem clears

/-! ## Wave memory -/

def waveOffset (addr : UInt32) : Nat := addr.toNat % waveMemLen

theorem toNat_and_wave (addr : UInt32) : (addr &&& 0x001fffff).toNat = waveOffset addr :=
  WordMask.toNat_and_low addr (i := 21) rfl

/-- An aligned word in wave memory. -/
structure IsRam (addr : UInt32) : Prop where
  aligned : addr.toNat % 4 = 0
  low : addr.toNat < 0x800000

namespace IsRam

variable (ram : IsRam addr)

include ram

theorem mapped : addr + 3 ≤ 0x007fffff := by
  have hsum : (addr + 3).toNat = addr.toNat + 3 := by
    have := ram.low
    rw [UInt32.toNat_add, show (3 : UInt32).toNat = 3 from rfl]
    omega
  rw [UInt32.le_iff_toNat_le, hsum, show (0x007fffff : UInt32).toNat = 0x7fffff from rfl]
  have := ram.aligned
  have := ram.low
  omega

theorem inWave : waveOffset addr + 3 < waveMemLen := by
  have := ram.aligned
  simp only [waveOffset, waveMemLen]
  omega

theorem read32 (aica : AicaSys σ) (c : Core σ) :
    memoryMapRead32 aica addr c =
      some (.ofNat (ByteMemory.load c.mem.wave (waveOffset addr) 4), c) := by
  rw [memoryMapRead32, if_pos ram.mapped, waveMemRead32, toNat_and_wave, if_pos ram.inWave]
  rfl

theorem write32 (aica : AicaSys σ) (c : Core σ) (val : UInt32) :
    memoryMapWrite32 aica addr c val =
      some { c with mem.wave := ByteMemory.store c.mem.wave (waveOffset addr) 4 val.toNat } := by
  rw [memoryMapWrite32, if_pos ram.mapped, toNat_and_wave, if_pos ram.inWave]

end IsRam

end Arm7

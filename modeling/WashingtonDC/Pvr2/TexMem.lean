import Mathlib.Data.UInt

/-!
# Texture memory

The two areas of texture memory and the write handlers of `pvr2_tex_mem.c`. The areas are separate
arrays. A handler announces the address that it is given to the framebuffers and, in the 64-bit
area, to the texture cache; the element that it writes is found by a division, so that a write to
an address that is not a multiple of its size goes to the bytes before it.
-/
namespace Pvr2

inductive TexArea
  | tex32
  | tex64
deriving DecidableEq

namespace TexArea

/-- `ADDR_TEX32_FIRST` and `ADDR_TEX64_FIRST`. -/
def first : TexArea → UInt32
  | tex32 => 0x05000000
  | tex64 => 0x04000000

/-- `ADDR_TEX32_LAST` and `ADDR_TEX64_LAST`. -/
def last : TexArea → UInt32
  | tex32 => 0x057fffff
  | tex64 => 0x047fffff

abbrev len : Nat := 0x800000

end TexArea

/-- The size of a write. -/
inductive TexSize
  | one
  | two
  | four
  | eight
deriving DecidableEq

def TexSize.bytes : TexSize → Nat
  | one => 1
  | two => 2
  | four => 4
  | eight => 8

theorem TexSize.bytes_pos (size : TexSize) : 0 < size.bytes := by
  cases size <;> decide

structure TexWrite where
  area : TexArea
  size : TexSize
  addr : UInt32
  val : UInt64

namespace TexWrite

variable (w : TexWrite)

def InBounds : Prop :=
  w.area.first ≤ w.addr ∧ w.addr ≤ w.area.last ∧
    w.addr.toNat - 1 + w.size.bytes ≤ w.area.last.toNat

instance : Decidable w.InBounds := inferInstanceAs (Decidable (_ ∧ _ ∧ _))

def index : Nat := (w.addr.toNat - w.area.first.toNat) / w.size.bytes

def written : List (TexArea × Nat) :=
  (List.range w.size.bytes).map fun i => (w.area, w.index * w.size.bytes + i)

def Aligned : Prop := w.size.bytes ∣ w.addr.toNat

instance : Decidable w.Aligned := inferInstanceAs (Decidable (_ ∣ _))

variable {w}

theorem mem_written {b : TexArea × Nat} :
    b ∈ w.written ↔ b.1 = w.area ∧ w.index * w.size.bytes ≤ b.2 ∧
      b.2 < w.index * w.size.bytes + w.size.bytes := by
  rw [written, List.mem_map]
  constructor
  · rintro ⟨i, hi, rfl⟩
    rw [List.mem_range] at hi
    refine ⟨rfl, ?_, ?_⟩
    · exact Nat.le_add_right _ _
    · exact Nat.add_lt_add_left hi _
  · rintro ⟨harea, hle, hlt⟩
    refine ⟨b.2 - w.index * w.size.bytes, List.mem_range.mpr (by omega), ?_⟩
    rw [Nat.add_sub_of_le hle, ← harea]

theorem Aligned.index_mul (aligned : w.Aligned) :
    w.index * w.size.bytes = w.addr.toNat - w.area.first.toNat := by
  have hfirst : w.size.bytes ∣ w.area.first.toNat := by
    cases w.area <;> cases w.size <;> decide
  exact Nat.div_mul_cancel (Nat.dvd_sub aligned hfirst)

end TexWrite

end Pvr2

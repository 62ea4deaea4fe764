import Mathlib.Data.UInt
import Mathlib.Data.Nat.Bitwise

/-!
# Fields of 32-bit words

Setting and clearing the bits of a mask, and what is then read through a mask. Adding bits that are
not set is the only arithmetic.
-/
namespace WordMask

variable (a b m k : UInt32)

theorem or_and : (a ||| b) &&& m = (a &&& m) ||| (b &&& m) := by
  apply UInt32.toBitVec_inj.mp
  ext i hi
  simp [Bool.and_or_distrib_right]

theorem clear_and_self : a &&& ~~~m &&& m = 0 := by
  rw [UInt32.and_assoc, UInt32.not_and_self, UInt32.and_zero]

theorem and_or_clear : (a &&& m) ||| (a &&& ~~~m) = a := by
  apply UInt32.toBitVec_inj.mp
  ext i hi
  simp [← Bool.and_or_distrib_left]

variable {m k}

theorem clear_and_of_disjoint (apart : k &&& m = 0) : a &&& ~~~k &&& m = a &&& m := by
  have hm : ~~~k &&& m = m := by
    apply UInt32.toBitVec_inj.mp
    ext i hi
    have hbit := congrArg (fun x : UInt32 => x.toBitVec.getLsbD i) apart
    simp [← BitVec.getLsbD_eq_getElem] at hbit ⊢
    cases hk : k.toBitVec.getLsbD i <;> simp_all
  rw [UInt32.and_assoc, hm]

theorem set_and_of_disjoint (apart : k &&& m = 0) : (a ||| k) &&& m = a &&& m := by
  rw [or_and, apart, UInt32.or_zero]

theorem replace_and_of_disjoint (apart : k &&& m = 0) (apart' : b &&& m = 0) :
    ((a &&& ~~~k) ||| b) &&& m = a &&& m := by
  rw [set_and_of_disjoint _ apart', clear_and_of_disjoint a apart]

theorem replace_and_of_subset (within : m &&& k = m) : ((a &&& ~~~k) ||| b) &&& m = b &&& m := by
  have hzero : a &&& ~~~k &&& m = 0 := by
    rw [← within, UInt32.and_comm m k, ← UInt32.and_assoc, clear_and_self, UInt32.zero_and]
  rw [or_and, hzero, UInt32.zero_or]

theorem set_and_of_subset (within : k &&& m = m) : (a ||| k) &&& m = m := by
  rw [or_and, within]
  apply UInt32.toBitVec_inj.mp
  ext i hi
  simp

theorem xor_and : (a ^^^ b) &&& m = (a &&& m) ^^^ (b &&& m) := by
  apply UInt32.toBitVec_inj.mp
  ext i hi
  simp [Bool.and_xor_distrib_right]

variable {i : Nat}

theorem and_bit (bit : m.toNat = 2 ^ i) : a &&& m = 0 ∨ a &&& m = m := by
  have hand : (a &&& m).toNat = (a.toNat.testBit i).toNat * 2 ^ i := by
    rw [UInt32.toNat_and, bit, Nat.and_two_pow]
  cases hbit : a.toNat.testBit i with
  | false =>
    left
    apply UInt32.toNat_inj.mp
    simp [hand, hbit]
  | true =>
    right
    apply UInt32.toNat_inj.mp
    simp [hand, hbit, bit]

theorem bne_zero_eq_testBit (bit : m.toNat = 2 ^ i) :
    (a &&& m != 0) = a.toNat.testBit i := by
  have hand : (a &&& m).toNat = (a.toNat.testBit i).toNat * 2 ^ i := by
    rw [UInt32.toNat_and, bit, Nat.and_two_pow]
  cases hbit : a.toNat.testBit i with
  | false =>
    rw [hbit, Bool.toNat_false, zero_mul] at hand
    rw [UInt32.toNat_inj.mp (hand.trans UInt32.toNat_zero.symm)]
    rfl
  | true =>
    rw [hbit, Bool.toNat_true, one_mul] at hand
    rw [bne_iff_ne, ne_eq, ← UInt32.toNat_inj, hand]
    exact ne_of_gt (Nat.two_pow_pos i)

theorem toNat_and_low (low : m.toNat = 2 ^ i - 1) : (a &&& m).toNat = a.toNat % 2 ^ i := by
  rw [UInt32.toNat_and, low, Nat.and_two_pow_sub_one_eq_mod]

theorem mod_of_low_bits (low : m.toNat = 2 ^ i - 1) (apart : a &&& m = 0) :
    a.toNat % 2 ^ i = 0 := by
  have hand := congrArg UInt32.toNat apart
  rwa [UInt32.toNat_and, low, Nat.and_two_pow_sub_one_eq_mod] at hand

/-! ## Adding bits that are not set -/

variable {a b}

theorem toNat_add_of_disjoint (apart : a &&& k = 0) : (a + k).toNat = a.toNat + k.toNat :=
  BitVec.toNat_add_of_and_eq_zero (congrArg UInt32.toBitVec apart)

theorem add_eq_or (apart : a &&& k = 0) : a + k = a ||| k :=
  UInt32.toBitVec_inj.mp
    (BitVec.add_eq_or_of_and_eq_zero _ _ (congrArg UInt32.toBitVec apart))

theorem toNat_and_high (low : m.toNat = 2 ^ i - 1) :
    (a &&& ~~~m).toNat = a.toNat - a.toNat % 2 ^ i := by
  have hapart : a &&& m &&& (a &&& ~~~m) = 0 := by
    apply UInt32.toBitVec_inj.mp
    ext j hj
    simp only [UInt32.toBitVec_and, UInt32.toBitVec_not, BitVec.getElem_and, BitVec.getElem_not]
    cases a.toBitVec[j] <;> cases m.toBitVec[j] <;> simp
  have hsum := toNat_add_of_disjoint hapart
  rw [add_eq_or hapart, and_or_clear, toNat_and_low _ low] at hsum
  omega

theorem and_disjoint (m : UInt32) (apart : a &&& k = 0) : a &&& m &&& k = 0 := by
  rw [UInt32.and_assoc, UInt32.and_comm m, ← UInt32.and_assoc, apart, UInt32.zero_and]

theorem add_and_of_subset (apart : a &&& k = 0) (within : k &&& m = k) :
    (a + k) &&& m = (a &&& m) + k := by
  rw [add_eq_or apart, or_and, within, add_eq_or (and_disjoint m apart)]

theorem add_le_iff_of_disjoint (apart : a &&& k = 0) (hk : k ≤ b) : a + k ≤ b ↔ a ≤ b - k := by
  rw [UInt32.le_iff_toNat_le, UInt32.le_iff_toNat_le, toNat_add_of_disjoint apart,
    UInt32.toNat_sub_of_le _ _ hk]
  have := UInt32.le_iff_toNat_le.mp hk
  omega

end WordMask

import Mathlib.Data.BitVec
import Mathlib.Data.Nat.Bitwise

/-!
# Barrel shifters

Shifts of a word of any width by any number of bits, with the last bit that leaves the word. The
values are stated on the numbers that words stand for; the lemmas give them in terms of the shifts
of `BitVec`.
-/
namespace BarrelShift

open BitVec Nat

inductive Kind
  | lsl | lsr | asr | ror
deriving DecidableEq

variable {w : Nat}

namespace Kind

/-- A word shifted by `n` bits. -/
def value (x : BitVec w) (n : Nat) : Kind → BitVec w
  | .lsl => BitVec.ofNat w (x.toNat * 2 ^ n)
  | .lsr => BitVec.ofNat w (x.toNat / 2 ^ n)
  | .asr => BitVec.ofInt w (x.toInt / 2 ^ n)
  | .ror => x.rotateRight n

/-- The last of `n` bits that leave the word, for `n` other than zero. -/
def out (x : BitVec w) (n : Nat) : Kind → Bool
  | .lsl => (x.toNat * 2 ^ n).testBit w
  | .lsr => x.toNat.testBit (n - 1)
  | .asr => decide (x.toInt / 2 ^ (n - 1) % 2 = 1)
  | .ror => (x.rotateRight n).msb

/-- The shifted word and the carry, which stays if no bit leaves the word. -/
def shift (kind : Kind) (x : BitVec w) (n : Nat) (carry : Bool) : BitVec w × Bool :=
  if n = 0 then (x, carry) else (kind.value x n, kind.out x n)

variable (x : BitVec w) (n : Nat)

/-! ## Values -/

theorem value_lsl : lsl.value x n = x <<< n := by
  apply eq_of_toNat_eq
  rw [value, toNat_ofNat, toNat_shiftLeft, Nat.shiftLeft_eq]

theorem value_lsr : lsr.value x n = x >>> n := by
  apply eq_of_toNat_eq
  have hlt : x.toNat / 2 ^ n < 2 ^ w := lt_of_le_of_lt (Nat.div_le_self _ _) x.isLt
  rw [value, toNat_ofNat, toNat_ushiftRight, shiftRight_eq_div_pow,
    mod_eq_of_lt hlt]

theorem value_asr : asr.value x n = x.sshiftRight n := by
  have hpow : ((2 ^ n : Nat) : Int) = 2 ^ n := by push_cast; rfl
  rw [value, ← hpow, ← Int.shiftRight_eq_div_pow, ← toInt_sshiftRight, ofInt_toInt]

/-! ## Carries -/

theorem out_lsl : lsl.out x n = (decide (n ≤ w) && x.getLsbD (w - n)) := by
  rw [out, testBit_mul_two_pow, testBit_toNat]

theorem out_lsr : lsr.out x n = x.getLsbD (n - 1) := by
  rw [out, testBit_toNat]

theorem toInt_odd (pos : 0 < w) : x.toInt % 2 = 1 ↔ x.getLsbD 0 = true := by
  have heven : 2 ^ w = 2 * 2 ^ (w - 1) := by
    rw [← Nat.pow_succ', succ_eq_add_one, Nat.sub_add_cancel pos]
  rw [← testBit_toNat, testBit_zero, decide_eq_true_iff, toInt_eq_toNat_cond]
  split <;> omega

theorem out_asr (pos : 0 < w) :
    asr.out x n = if n - 1 < w then x.getLsbD (n - 1) else x.msb := by
  have hpow : ((2 ^ (n - 1) : Nat) : Int) = 2 ^ (n - 1) := by push_cast; rfl
  have hbit : asr.out x n = (x.sshiftRight (n - 1)).getLsbD 0 := by
    rw [out, Bool.eq_iff_iff, decide_eq_true_iff, ← hpow, ← Int.shiftRight_eq_div_pow,
      ← toInt_sshiftRight, toInt_odd _ pos]
  rw [hbit, getLsbD_sshiftRight, add_zero, decide_eq_false (not_le.mpr pos),
    Bool.not_false, Bool.true_and]

/-! ## More bits than the word has -/

variable {x n}

theorem msb_eq_false_of_ushiftRight {k : Nat} (lt : k < w) (zero : x >>> k = 0#w) :
    x.msb = false := by
  have hbit := congrArg (fun y : BitVec w => y.getLsbD (w - 1 - k)) zero
  have hindex : k + (w - 1 - k) = w - 1 := by omega
  rw [getLsbD_ushiftRight, hindex, getLsbD_zero] at hbit
  rw [msb_eq_getLsbD_last, hbit]

theorem out_lsl_of_mod (le : w ≤ n) (same : lsl.value x (n % w) = lsl.value x n) :
    lsl.out x n = false := by
  rw [out_lsl]
  rcases Nat.eq_or_lt_of_le le with rfl | hlt
  · rw [value_lsl, value_lsl, mod_self, BitVec.shiftLeft_zero,
      shiftLeft_eq_zero (le_refl _)] at same
    rw [same, getLsbD_zero, Bool.and_false]
  · rw [decide_eq_false (not_le.mpr hlt), Bool.false_and]

theorem out_lsr_of_mod (pos : 0 < w) (le : w ≤ n) (same : lsr.value x (n % w) = lsr.value x n) :
    lsr.out x n = x.msb := by
  rw [out_lsr]
  rcases Nat.eq_or_lt_of_le le with rfl | hlt
  · rw [msb_eq_getLsbD_last]
  · rw [value_lsr, value_lsr, ushiftRight_eq_zero le] at same
    rw [getLsbD_of_ge _ _ (le_sub_one_of_lt hlt),
      msb_eq_false_of_ushiftRight (mod_lt n pos) same]

theorem out_asr_of_le (pos : 0 < w) (le : w ≤ n) : asr.out x n = x.msb := by
  rw [out_asr x n pos]
  split
  · rw [msb_eq_getLsbD_last]
    congr 1
    omega
  · rfl

end Kind

/-! ## Rotations -/

theorem getLsbD_rotateRight_mod (x : BitVec w) (n : Nat) {i : Nat} (lt : i < w) :
    (x.rotateRight n).getLsbD i = x.getLsbD ((i + n) % w) := by
  have hmod := mod_lt n (zero_lt_of_lt lt)
  rw [getLsbD_rotateRight, ← add_mod_mod]
  by_cases hstay : i < w - n % w
  · have hfits : (i + n % w) % w = i + n % w := mod_eq_of_lt (by omega)
    rw [decide_eq_true hstay, cond_true, hfits, add_comm]
  · have hwrap : (i + n % w) % w = i + n % w - w := by
      rw [mod_eq_sub_mod (by omega), mod_eq_of_lt (by omega)]
    rw [decide_eq_false hstay, cond_false, decide_eq_true lt, Bool.true_and, hwrap]
    congr 1
    omega

theorem rotateRight_zero (x : BitVec w) : x.rotateRight 0 = x := by
  apply eq_of_getLsbD_eq
  intro i hi
  rw [getLsbD_rotateRight_mod x 0 hi, add_zero, mod_eq_of_lt hi]

theorem iterate_rotateRight_one (x : BitVec w) (n : Nat) :
    (fun y : BitVec w => y.rotateRight 1)^[n] x = x.rotateRight n := by
  induction n with
  | zero => exact (rotateRight_zero x).symm
  | succ n ih =>
    apply eq_of_getLsbD_eq
    intro i hi
    have hlt : (i + 1) % w < w := mod_lt _ (zero_lt_of_lt hi)
    rw [Function.iterate_succ_apply', ih, getLsbD_rotateRight_mod _ 1 hi,
      getLsbD_rotateRight_mod x n hlt, getLsbD_rotateRight_mod x (n + 1) hi, mod_add_mod,
      add_assoc, add_comm 1]

end BarrelShift

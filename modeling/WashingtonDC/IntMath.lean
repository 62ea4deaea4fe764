import Mathlib.Data.UInt
import Mathlib.Data.Nat.Bitwise

/-!
# Sums and differences with flags

`add_flags` and `sub_flags` of `intmath.h`: the carry is bit 32 of a 64-bit result, the overflow is
found by comparisons. Each returns its result, the carry or borrow, and the overflow; callers pass a
null pointer for what they do not want.
-/
namespace IntMath

open Bool Option

/-! ## Signed words -/

theorem toInt32_toInt (x : UInt32) :
    x.toInt32.toInt = if x.toNat < 2 ^ 31 then (x.toNat : Int) else x.toNat - 2 ^ 32 := by
  show x.toBitVec.toInt = _
  rw [BitVec.toInt_eq_toNat_cond]
  have : x.toBitVec.toNat = x.toNat := rfl
  split <;> split <;> omega

/-! ## Sums and differences -/

/-- The signed comparisons are those of `int`; `INT_MAX - rhs` and `INT_MIN - rhs` do not overflow
where they are evaluated. -/
def addFlags (lhs rhs : UInt32) (carryIn : Bool) : UInt32 × Bool × Bool :=
  let cIn : UInt64 := if carryIn then 1 else 0
  let res64 := lhs.toUInt64 + rhs.toUInt64 + cIn
  let outside (rhs lhs : Int) : Bool :=
    decide (0 < rhs ∧ lhs > 2147483647 - rhs ∨ rhs < 0 ∧ lhs < -2147483648 - rhs)
  let overflow := outside rhs.toInt32.toInt lhs.toInt32.toInt
  (res64.toUInt32, res64 &&& ((1 : UInt64) <<< 32) != 0,
    if !overflow && carryIn then outside (rhs.toInt32.toInt + lhs.toInt32.toInt) 1 else overflow)

/-- The difference is `rhs - lhs`. With a borrow the signed difference is incremented. -/
def subFlags (lhs rhs : UInt32) (carryIn : Bool) : UInt32 × Bool × Bool :=
  let cIn : UInt64 := if carryIn then 1 else 0
  let res64 := rhs.toUInt64 - lhs.toUInt64 - cIn
  let outside (res : Int) : Bool := decide (res > 2147483647 ∨ res < -2147483648)
  let resSigned := rhs.toInt32.toInt - lhs.toInt32.toInt
  (res64.toUInt32, res64 &&& ((1 : UInt64) <<< 32) != 0,
    if !outside resSigned && carryIn then outside (resSigned + 1) else outside resSigned)

theorem toNat_and_bit32 (x : UInt64) :
    (x &&& ((1 : UInt64) <<< 32) != 0).toNat = x.toNat / 2 ^ 32 % 2 := by
  have hand : (x &&& ((1 : UInt64) <<< 32)).toNat = x.toNat / 2 ^ 32 % 2 * 2 ^ 32 := by
    rw [UInt64.toNat_and]
    show x.toNat &&& 2 ^ 32 = _
    rw [Nat.and_two_pow, Nat.toNat_testBit]
  by_cases hzero : x &&& ((1 : UInt64) <<< 32) = 0
  · rw [hzero] at hand ⊢
    simp at hand ⊢
    omega
  · rw [bne_iff_ne.mpr hzero]
    rw [← UInt64.toNat_inj, hand] at hzero
    simp at hzero ⊢
    omega

theorem addFlags_exact (lhs rhs : UInt32) (carryIn : Bool) :
    lhs.toNat + rhs.toNat + carryIn.toNat =
      (addFlags lhs rhs carryIn).1.toNat + 2 ^ 32 * (addFlags lhs rhs carryIn).2.1.toNat := by
  have hl := lhs.toNat_lt
  have hr := rhs.toNat_lt
  have hc : carryIn.toNat ≤ 1 := toNat_le carryIn
  have hsum : (lhs.toUInt64 + rhs.toUInt64 + if carryIn then 1 else 0).toNat =
      lhs.toNat + rhs.toNat + carryIn.toNat := by
    cases carryIn <;> simp <;> omega
  simp only [addFlags, toNat_and_bit32, UInt64.toNat_toUInt32, hsum]
  omega

theorem subFlags_exact (lhs rhs : UInt32) (carryIn : Bool) :
    lhs.toNat + (subFlags lhs rhs carryIn).1.toNat + carryIn.toNat =
      rhs.toNat + 2 ^ 32 * (subFlags lhs rhs carryIn).2.1.toNat := by
  have hl := lhs.toNat_lt
  have hr := rhs.toNat_lt
  have hc : carryIn.toNat ≤ 1 := toNat_le carryIn
  have hdiff : (rhs.toUInt64 - lhs.toUInt64 - if carryIn then 1 else 0).toNat =
      (2 ^ 64 + rhs.toNat - lhs.toNat - carryIn.toNat) % 2 ^ 64 := by
    cases carryIn <;> simp [UInt64.toNat_sub] <;> omega
  simp only [subFlags, toNat_and_bit32, UInt64.toNat_toUInt32, hdiff]
  omega

theorem addFlags_false (lhs rhs : UInt32) : addFlags lhs rhs false =
    (lhs + rhs, decide (2 ^ 32 ≤ lhs.toNat + rhs.toNat),
      let l := lhs.toInt32.toInt
      let r := rhs.toInt32.toInt
      decide (0 < r ∧ l > 2147483647 - r ∨ r < 0 ∧ l < -2147483648 - r)) := by
  have hexact := addFlags_exact lhs rhs false
  have hres := (addFlags lhs rhs false).1.toNat_lt
  have hcarry := toNat_le (addFlags lhs rhs false).2.1
  rw [toNat_false, add_zero] at hexact
  refine Prod.ext (UInt32.toNat_inj.mp ?_) (Prod.ext (Bool.eq_iff_iff.mpr ?_) ?_)
  · rw [UInt32.toNat_add]
    omega
  · rw [decide_eq_true_iff, ← toNat_eq_one]
    omega
  · simp only [addFlags, Bool.and_false, false_eq_true, if_false]

theorem subFlags_false (lhs rhs : UInt32) : subFlags lhs rhs false =
    (rhs - lhs, decide (rhs.toNat < lhs.toNat),
      let res := rhs.toInt32.toInt - lhs.toInt32.toInt
      decide (res > 2147483647 ∨ res < -2147483648)) := by
  have hexact := subFlags_exact lhs rhs false
  have hres := (subFlags lhs rhs false).1.toNat_lt
  have hl := lhs.toNat_lt
  rw [toNat_false, add_zero] at hexact
  refine Prod.ext (UInt32.toNat_inj.mp ?_) (Prod.ext (Bool.eq_iff_iff.mpr ?_) ?_)
  · rw [UInt32.toNat_sub]
    omega
  · rw [decide_eq_true_iff, ← toNat_eq_one]
    omega
  · simp only [subFlags, Bool.and_false, false_eq_true, if_false]

/-! ## Overflow -/

/-- A signed result in `w` bits; C defines none when it does not fit. -/
def signed (w : Nat) (z : Int) : Option Int :=
  if -2 ^ (w - 1) ≤ z ∧ z < 2 ^ (w - 1) then some z else none

/-- The comparisons of `add_flags`, which evaluates a difference only behind its `&&`. -/
def sumOutside (rhs lhs : Int) : Option Bool :=
  if 0 < rhs then (signed 32 (2147483647 - rhs)).map fun top => decide (lhs > top)
  else if rhs < 0 then (signed 32 (-2147483648 - rhs)).map fun bottom => decide (lhs < bottom)
  else some false

/-- The overflow of `add_flags`, with each sum and difference in an `int32_t`. -/
def addOverflow (lhs rhs : Int) (carryIn : Bool) : Option Bool := do
  let overflow ← sumOutside rhs lhs
  if !overflow && carryIn then sumOutside (← signed 32 (rhs + lhs)) 1 else return overflow

/-- The overflow of `sub_flags`, with each sum and difference in an `int64_t`. -/
def subOverflow (lhs rhs : Int) (carryIn : Bool) : Option Bool := do
  let outside (res : Int) : Bool := decide (res > 2147483647 ∨ res < -2147483648)
  let resSigned ← signed 64 (rhs - lhs)
  if !outside resSigned && carryIn then return outside (← signed 64 (resSigned + 1))
  else return outside resSigned

/-- The result and the carry are those of an unsigned number. -/
def Carries (flags : UInt32 × Bool × Bool) (exact : Int) : Prop :=
  (flags.1.toNat : Int) = exact % 2 ^ 32 ∧ (flags.2.1 = true ↔ ¬(0 ≤ exact ∧ exact < 2 ^ 32))

/-- The overflow is that of a signed number. -/
def Overflows (flags : UInt32 × Bool × Bool) (exact : Int) : Prop :=
  flags.2.2 = (signed 32 exact).isNone

theorem toInt_bounds (x : UInt32) : -2 ^ 31 ≤ x.toInt32.toInt ∧ x.toInt32.toInt < 2 ^ 31 :=
  ⟨x.toInt32.le_toInt, x.toInt32.toInt_lt⟩

theorem overflows_iff {flags : UInt32 × Bool × Bool} {exact : Int} :
    Overflows flags exact ↔ (flags.2.2 = true ↔ ¬(-2 ^ 31 ≤ exact ∧ exact < 2 ^ 31)) := by
  rw [Overflows, signed, Bool.eq_iff_iff]
  split <;> simp_all

theorem sumOutside_eq {rhs : Int} (lhs : Int) (fits : -2 ^ 31 ≤ rhs ∧ rhs < 2 ^ 31) :
    sumOutside rhs lhs =
      some (decide (0 < rhs ∧ lhs > 2147483647 - rhs ∨ rhs < 0 ∧ lhs < -2147483648 - rhs)) := by
  rw [sumOutside]
  split_ifs with hpos hneg
  · rw [signed, if_pos (by omega)]
    simp [hpos, hpos.le]
  · rw [signed, if_pos (by omega)]
    simp [hneg, hneg.le]
  · simp [hpos, hneg]

section
variable (lhs rhs : UInt32) (carryIn : Bool)

theorem addOverflow_eq : addOverflow lhs.toInt32.toInt rhs.toInt32.toInt carryIn =
    some (addFlags lhs rhs carryIn).2.2 := by
  have hl := toInt_bounds lhs
  have hr := toInt_bounds rhs
  simp only [addFlags, addOverflow, sumOutside_eq _ hr, bind_eq_bind, bind_some]
  split
  · -- The carry is only looked at when the sum fits.
    rename_i hnone
    have hfits : -2 ^ 31 ≤ rhs.toInt32.toInt + lhs.toInt32.toInt ∧
        rhs.toInt32.toInt + lhs.toInt32.toInt < 2 ^ 31 := by
      simp only [and_eq_true, not_eq_true', decide_eq_false_iff_not] at hnone
      omega
    rw [signed, if_pos hfits]
    exact sumOutside_eq 1 hfits
  · rfl

theorem subOverflow_eq : subOverflow lhs.toInt32.toInt rhs.toInt32.toInt carryIn =
    some (subFlags lhs rhs carryIn).2.2 := by
  have hl := toInt_bounds lhs
  have hr := toInt_bounds rhs
  simp only [subFlags, subOverflow, signed]
  rw [if_pos (by omega)]
  simp only [bind_eq_bind, bind_some]
  split
  · rw [if_pos (by omega)]
    rfl
  · rfl

/-- The sum, the difference and their carries are exact, and no intermediate result overflows. With
a carry the overflow of the sum is wrong where only the carry makes it fit, and that of the
difference where it matters that the borrow is added and not subtracted. -/
theorem flags_exact_iff :
    (Carries (addFlags lhs rhs carryIn) (lhs.toNat + rhs.toNat + carryIn.toNat) ∧
      addOverflow lhs.toInt32.toInt rhs.toInt32.toInt carryIn =
        some (addFlags lhs rhs carryIn).2.2 ∧
      (Overflows (addFlags lhs rhs carryIn)
          (lhs.toInt32.toInt + rhs.toInt32.toInt + carryIn.toNat) ↔
        ¬(carryIn = true ∧ lhs.toInt32.toInt + rhs.toInt32.toInt = -2 ^ 31 - 1))) ∧
    Carries (subFlags lhs rhs carryIn) (rhs.toNat - lhs.toNat - carryIn.toNat) ∧
      subOverflow lhs.toInt32.toInt rhs.toInt32.toInt carryIn =
        some (subFlags lhs rhs carryIn).2.2 ∧
      (Overflows (subFlags lhs rhs carryIn)
          (rhs.toInt32.toInt - lhs.toInt32.toInt - carryIn.toNat) ↔
        ¬(carryIn = true ∧
          rhs.toInt32.toInt - lhs.toInt32.toInt ∈ [-2 ^ 31, 2 ^ 31 - 1, (2 : Int) ^ 31])) := by
  have hl := toInt_bounds lhs
  have hr := toInt_bounds rhs
  have hsum := addFlags_exact lhs rhs carryIn
  have hdiff := subFlags_exact lhs rhs carryIn
  have hres := (addFlags lhs rhs carryIn).1.toNat_lt
  have hres' := (subFlags lhs rhs carryIn).1.toNat_lt
  have hcarry := toNat_le (addFlags lhs rhs carryIn).2.1
  have hborrow := toNat_le (subFlags lhs rhs carryIn).2.1
  have hrhs := rhs.toNat_lt
  rw [overflows_iff, overflows_iff]
  refine ⟨⟨⟨by omega, ?_⟩, addOverflow_eq .., ?_⟩, ⟨by omega, ?_⟩, subOverflow_eq .., ?_⟩
  · rw [← toNat_eq_one]
    omega
  · cases carryIn <;> simp only [addFlags] <;> split <;> simp_all <;> omega
  · rw [← toNat_eq_one]
    omega
  · cases carryIn <;> simp only [subFlags] <;> split <;> simp_all <;> omega

/-- A sum that only the carry makes fit, and a difference that only the borrow makes too small. -/
theorem flags_not_exact : (addFlags 0x80000000 0xffffffff true).2.2 = true ∧
    signed 32 ((0x80000000 : UInt32).toInt32.toInt + (0xffffffff : UInt32).toInt32.toInt + 1) =
      some (-2 ^ 31) ∧
    (subFlags 0 0x80000000 true).2.2 = false ∧
    signed 32 ((0x80000000 : UInt32).toInt32.toInt - (0 : UInt32).toInt32.toInt - 1) = none := by
  decide

end

end IntMath

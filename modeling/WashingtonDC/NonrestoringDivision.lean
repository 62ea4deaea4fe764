import Mathlib.Tactic.LinearCombination
import Mathlib.Tactic.Ring

/-!
# Non-restoring division

Division bit by bit in which a partial remainder may be negative: the divisor is subtracted if it
is not, and added otherwise. `Divider` keeps the rest of the dividend and the quotient in one word of
`w` bits, and the last bit of the quotient in a flag.
-/
namespace NonrestoringDivision

/-- The next partial remainder, with the next bit of the dividend shifted in. -/
def next (d : Nat) (r : Int) (b : Bool) : Int :=
  if r < 0 then 2 * r + b.toNat + d else 2 * r + b.toNat - d

def restored (d : Nat) (r : Int) : Int := if r < 0 then r + d else r

variable {d : Nat} {r : Int}

theorem next_bounds (b : Bool) (lower : -(d : Int) ≤ r) (upper : r < d) :
    -(d : Int) ≤ next d r b ∧ next d r b < d := by
  have hb : b.toNat ≤ 1 := Bool.toNat_le b
  rw [next]
  split <;> omega

theorem restored_bounds (lower : -(d : Int) ≤ r) (upper : r < d) :
    0 ≤ restored d r ∧ restored d r < d := by
  rw [restored]
  split <;> omega

theorem restored_next (d : Nat) (r : Int) (b : Bool) :
    restored d (next d r b) + d * (decide (0 ≤ next d r b)).toNat =
      2 * restored d r + b.toNat := by
  have hnext : next d r b + d = 2 * restored d r + b.toNat := by
    rw [next, restored]
    split <;> omega
  rw [← hnext]
  by_cases hsign : 0 ≤ next d r b
  · rw [restored, if_neg (by omega), decide_eq_true hsign]
    simp
  · rw [restored, if_pos (by omega), decide_eq_false hsign]
    simp

/-! ## Dividing in place -/

/-- `low` holds the bits of the dividend that are not used yet above those of the quotient but the
last, which is `bit`. -/
structure Divider where
  rem : Int
  low : Nat
  bit : Bool

variable {w : Nat}

/-- What is left when the word and the flag are shifted to the left. -/
def Divider.rotated (w : Nat) (s : Divider) : Nat := (2 * s.low + s.bit.toNat) % 2 ^ w

def Divider.step (w d : Nat) (s : Divider) : Divider :=
  let rem := next d s.rem (decide (2 ^ (w - 1) ≤ s.low))
  ⟨rem, s.rotated w, decide (0 ≤ rem)⟩

/-- After `k` steps the quotient of the upper bits of the dividend is `2 * quot + bit`, and `rest`
are its lower bits. -/
structure After (w d : Nat) (dividend k : Nat) (s : Divider) : Prop where
  lower : -(d : Int) ≤ s.rem
  upper : s.rem < d
  split : ∃ quot rest used, s.low = rest * 2 ^ k + quot ∧ rest < 2 ^ (w - k) ∧
    2 * quot + s.bit.toNat < 2 ^ k ∧ dividend = used * 2 ^ (w - k) + rest ∧
    restored d s.rem + d * (2 * quot + s.bit.toNat : Nat) = used

variable {dividend k : Nat} {s : Divider}

theorem after_zero {high low : Nat} (lt : high < d) (fits : low < 2 ^ w) :
    After w d (high * 2 ^ w + low) 0 ⟨high, low, false⟩ where
  lower := by dsimp only; omega
  upper := by dsimp only; omega
  split := by
    refine ⟨0, low, high, by simp, fits, by simp, rfl, ?_⟩
    rw [restored, if_neg (by dsimp only; omega)]
    simp

theorem upperBit {quot rest : Nat} (k_lt : k < w) (quot_lt : quot < 2 ^ k) :
    2 ^ (w - 1) ≤ rest * 2 ^ k + quot ↔ 2 ^ (w - (k + 1)) ≤ rest := by
  have hpow : 2 ^ (w - 1) = 2 ^ (w - (k + 1)) * 2 ^ k := by
    rw [← Nat.pow_add]
    congr 1
    omega
  rw [hpow]
  constructor
  · intro hle
    by_contra hlt
    have hmul : (rest + 1) * 2 ^ k ≤ 2 ^ (w - (k + 1)) * 2 ^ k := Nat.mul_le_mul_right _ (by omega)
    rw [add_mul] at hmul
    omega
  · intro hle
    have hmul := Nat.mul_le_mul_right (2 ^ k) hle
    omega

theorem rotate_word {quot rest bit b : Nat} (k_lt : k < w) (rest_lt : rest < 2 ^ (w - (k + 1)))
    (quot_lt : 2 * quot + bit < 2 ^ k) :
    (2 * ((b * 2 ^ (w - (k + 1)) + rest) * 2 ^ k + quot) + bit) % 2 ^ w =
      rest * 2 ^ (k + 1) + (2 * quot + bit) := by
  have hpow : 2 ^ w = 2 ^ (w - (k + 1)) * 2 ^ (k + 1) := by
    rw [← Nat.pow_add]
    congr 1
    omega
  have hlt : rest * 2 ^ (k + 1) + (2 * quot + bit) < 2 ^ w := by
    have hmul : (rest + 1) * 2 ^ (k + 1) ≤ 2 ^ (w - (k + 1)) * 2 ^ (k + 1) :=
      Nat.mul_le_mul_right _ (by omega)
    rw [add_mul] at hmul
    omega
  have hsum : 2 * ((b * 2 ^ (w - (k + 1)) + rest) * 2 ^ k + quot) + bit =
      rest * 2 ^ (k + 1) + (2 * quot + bit) + 2 ^ w * b := by
    rw [hpow]
    ring
  rw [hsum, Nat.add_mul_mod_self_left, Nat.mod_eq_of_lt hlt]

theorem After.step (h : After w d dividend k s) (k_lt : k < w) :
    After w d dividend (k + 1) (s.step w d) := by
  obtain ⟨quot, rest, used, hlow, hrest, hquot, hdividend, hused⟩ := h.split
  have hbounds := next_bounds (decide (2 ^ (w - 1) ≤ s.low)) h.lower h.upper
  refine ⟨hbounds.1, hbounds.2, ?_⟩
  have hpow : 2 ^ (w - k) = 2 * 2 ^ (w - (k + 1)) := by
    rw [← Nat.pow_succ']
    congr 1
    omega
  -- the rest without its upper bit, which is the next one
  obtain ⟨b, rest', rfl, hrest', hbit⟩ : ∃ (b : Bool) (rest' : Nat),
      rest = b.toNat * 2 ^ (w - (k + 1)) + rest' ∧ rest' < 2 ^ (w - (k + 1)) ∧
        decide (2 ^ (w - 1) ≤ s.low) = b := by
    have hupper : 2 ^ (w - 1) ≤ rest * 2 ^ k + quot ↔ 2 ^ (w - (k + 1)) ≤ rest :=
      upperBit k_lt (by omega)
    rw [← hlow] at hupper
    by_cases hle : 2 ^ (w - (k + 1)) ≤ rest
    · exact ⟨true, rest - 2 ^ (w - (k + 1)), by simp; omega, by omega,
        decide_eq_true (hupper.mpr hle)⟩
    · exact ⟨false, rest, by simp, by omega, decide_eq_false (mt hupper.mp hle)⟩
  have hnext := restored_next d s.rem b
  refine ⟨2 * quot + s.bit.toNat, rest', 2 * used + b.toNat, ?_, hrest', ?_, ?_, ?_⟩
  · rw [← rotate_word k_lt hrest' hquot, ← hlow]
    rfl
  · have hbit' := Bool.toNat_le (s.step w d).bit
    rw [pow_succ]
    omega
  · rw [hdividend, hpow]
    ring
  · show restored d (next d s.rem (decide (2 ^ (w - 1) ≤ s.low))) +
      d * (2 * (2 * quot + s.bit.toNat) +
        (decide (0 ≤ next d s.rem (decide (2 ^ (w - 1) ≤ s.low)))).toNat : Nat) = _
    rw [hbit]
    push_cast at hnext hused ⊢
    linear_combination hnext + 2 * hused

theorem After.steps (h : After w d dividend 0 s) (k_le : k ≤ w) :
    After w d dividend k ((Divider.step w d)^[k] s) := by
  induction k with
  | zero => exact h
  | succ k ih =>
    rw [Function.iterate_succ_apply']
    exact (ih (by omega)).step (by omega)

theorem After.rotated_eq (h : After w d dividend w s) : s.rotated w = dividend / d := by
  obtain ⟨quot, rest, used, hlow, hrest, hquot, hdividend, hused⟩ := h.split
  obtain ⟨hlower, hupper⟩ := restored_bounds h.lower h.upper
  rw [Nat.sub_self] at hrest hdividend
  obtain rfl : rest = 0 := by omega
  have hrotated : s.rotated w = 2 * quot + s.bit.toNat := by
    rw [Divider.rotated, hlow, zero_mul, zero_add, Nat.mod_eq_of_lt hquot]
  obtain ⟨rem, hrem⟩ := Int.eq_ofNat_of_zero_le hlower
  rw [hrem] at hupper hused
  have hsum : rem + d * (2 * quot + s.bit.toNat) = dividend := by
    rw [hdividend, pow_zero, mul_one, add_zero]
    exact_mod_cast hused
  rw [hrotated, ← hsum, Nat.add_mul_div_left _ _ (by omega), Nat.div_eq_of_lt (by omega),
    zero_add]

theorem divides {high low : Nat} (lt : high < d) (fits : low < 2 ^ w) :
    ((Divider.step w d)^[w] ⟨high, low, false⟩).rotated w = (high * 2 ^ w + low) / d :=
  ((after_zero lt fits).steps le_rfl).rotated_eq

end NonrestoringDivision

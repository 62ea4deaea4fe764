import Mathlib.Data.Nat.Digits.Defs
import Mathlib.Tactic.LinearCombination

/-!
# Columns with a carry

Addition of two numbers digit by digit in any base. The carry is a number and no digit is bounded,
so that an equation of this form also describes subtraction: what is added to the difference is the
subtrahend, and the carry is the borrow.
-/
namespace CarryChain

/-- The columns `(x, y, z)` from the least digit on: `x + y` and the carry are `z` and the next
carry. -/
inductive Adds (base : Nat) : Nat → List (Nat × Nat × Nat) → Nat → Prop
  | nil {carry : Nat} : Adds base carry [] carry
  | cons {carry next out x y z : Nat} {columns : List (Nat × Nat × Nat)}
    (column : x + y + carry = z + base * next) (rest : Adds base next columns out) :
    Adds base carry ((x, y, z) :: columns) out

variable {base carry out : Nat} {columns : List (Nat × Nat × Nat)}

theorem Adds.ofDigits_eq (h : Adds base carry columns out) :
    Nat.ofDigits base (columns.map (·.1)) + Nat.ofDigits base (columns.map (·.2.1)) + carry =
      Nat.ofDigits base (columns.map (·.2.2)) + base ^ columns.length * out := by
  induction h with
  | nil => simp
  | cons column _ ih =>
    simp only [List.map_cons, Nat.ofDigits_cons, List.length_cons, pow_succ]
    linear_combination column + base * ih

theorem eq_sub_emod {a b r m borrow : Nat} (h : a + r = b + m * borrow) (lt : r < m) :
    (r : Int) = ((b : Int) - a) % m := by
  have hdiff : (b : Int) - a = r - m * borrow := by
    have hcast : (a : Int) + r = b + m * borrow := by exact_mod_cast h
    linear_combination -hcast
  rw [hdiff, Int.sub_mul_emod_self_left, Int.emod_eq_of_lt (by omega) (by omega)]

end CarryChain

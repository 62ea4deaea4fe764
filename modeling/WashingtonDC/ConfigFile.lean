import Mathlib.Data.Nat.Digits.Defs
import Mathlib.Tactic.Ring

/-!
# Decimal numbers in configuration files

`cfg_parse_decimal_int` of `config_file.c`. An `int` has 32 bits; an overflow, which C leaves
undefined, wraps around here. The function looks at the characters only, so that a number that an
`int` cannot hold is not refused.
-/
namespace ConfigFile

def wrap (z : Int) : Int := z.bmod (2 ^ 32)

def digit (c : Char) : Nat := c.toNat - 48

/-- The loop over the digits, from the last one to the first. -/
def addDigits (scale sum : Int) : List Char → Option Int
  | [] => some sum
  | c :: cs =>
    if c.isDigit then addDigits (wrap (scale * 10)) (wrap (sum + wrap (scale * digit c))) cs
    else none

/-- The sign, and what is behind it. -/
def splitSign : List Char → Int × List Char
  | [] => (1, [])
  | c :: cs => if c = '-' then (-1, cs) else if c = '+' then (1, cs) else (1, c :: cs)

/-- `cfg_parse_decimal_int`; `none` is the result -1. -/
def cfgParseDecimalInt (valstr : List Char) : Option Int :=
  let (sign, digits) := splitSign valstr
  if digits = [] then none else (addDigits 1 0 digits.reverse).map fun sum => wrap (sign * sum)

/-- The number that digits stand for, the last one first. -/
def value (cs : List Char) : Nat := Nat.ofDigits 10 (cs.map digit)

/-- The integer that a decimal string stands for. -/
def decimal (valstr : List Char) : Option Int :=
  let (sign, digits) := splitSign valstr
  if digits ≠ [] ∧ digits.all Char.isDigit then some (sign * value digits.reverse) else none

/-- The integers that an `int` can hold. -/
def Fits (z : Int) : Prop := -2 ^ 31 ≤ z ∧ z < 2 ^ 31

theorem addDigits_eq (cs : List Char) (scale sum : Int) : addDigits (wrap scale) (wrap sum) cs =
    if cs.all Char.isDigit then some (wrap (sum + scale * value cs)) else none := by
  induction cs generalizing scale sum with
  | nil => simp [addDigits, value]
  | cons c cs ih =>
    have hscale : wrap (wrap scale * 10) = wrap (scale * 10) := Int.bmod_mul_bmod
    have hsum : wrap (wrap sum + wrap (wrap scale * digit c)) = wrap (sum + scale * digit c) := by
      simp [wrap]
    have hvalue : sum + scale * digit c + scale * 10 * value cs =
        sum + scale * value (c :: cs) := by
      rw [value, value, List.map_cons, Nat.ofDigits_cons]
      push_cast
      ring
    rw [addDigits, hscale, hsum, ih, hvalue]
    by_cases hc : c.isDigit = true <;> simp [hc]

theorem cfgParseDecimalInt_eq (valstr : List Char) :
    cfgParseDecimalInt valstr = (decimal valstr).map wrap := by
  rw [cfgParseDecimalInt, decimal]
  cases splitSign valstr with
  | mk sign digits =>
    have hloop := addDigits_eq digits.reverse 1 0
    rw [show wrap 1 = 1 from rfl, show wrap 0 = 0 from rfl] at hloop
    dsimp only
    rw [hloop]
    by_cases hnil : digits = []
    · simp [hnil]
    · by_cases hall : digits.all Char.isDigit = true
      · simp [hnil, wrap]
      · simp [hnil, hall]

theorem wrap_eq_iff (z : Int) : wrap z = z ↔ Fits z := by
  rw [wrap, Fits, Int.bmod_def]
  split <;> omega

/-- Decimal strings are accepted with their value and everything else is refused, if and only if
an `int` can hold the number. -/
theorem cfgParseDecimalInt_iff (valstr : List Char) :
    (∀ z, cfgParseDecimalInt valstr = some z ↔ decimal valstr = some z ∧ Fits z) ↔
      ∀ z, decimal valstr = some z → Fits z := by
  rw [cfgParseDecimalInt_eq]
  cases decimal valstr with
  | none => simp
  | some z =>
    simp only [Option.map_some, Option.some.injEq, forall_eq']
    constructor
    · intro agrees
      obtain ⟨heq, fits⟩ := (agrees (wrap z)).mp rfl
      exact heq ▸ fits
    · intro fits z'
      rw [(wrap_eq_iff z).mpr fits]
      constructor
      · rintro rfl
        exact ⟨rfl, fits⟩
      · exact And.left

/-- The number 2 ^ 32 is accepted, with the value 0. -/
theorem cfgParseDecimalInt_overflow : decimal "4294967296".toList = some (2 ^ 32) ∧
    cfgParseDecimalInt "4294967296".toList = some 0 := by
  decide +kernel

end ConfigFile

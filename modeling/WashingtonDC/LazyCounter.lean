import Mathlib.Data.Nat.ModEq
import Mathlib.Algebra.Order.Ring.Nat

/-!
# Counters that are brought up to date on demand

A reference counter starts from a value at a time, goes up by one every period and wraps at a
modulus. A lazy counter remembers the time of its last update; an update adds the whole periods that
have passed since then and drops the rest. The two agree as long as every update comes a whole
number of periods after the last one or before a period is over.
-/

/-- A counter that has been set to a value at a time. -/
structure ReferenceCounter where
  start : Nat
  value : Nat
  period : Nat

namespace ReferenceCounter

variable (r : ReferenceCounter) (modulus : Nat)

def count (time : Nat) : Nat := (r.value + (time - r.start) / r.period) % modulus

/-- The time at which the counter wraps for the `j`-th time. -/
def wrap (j : Nat) : Nat := r.start + (modulus * j - r.value) * r.period

variable {r modulus}

theorem count_add_mul (pos : 0 < r.period) {n rest : Nat} (lt : rest < r.period) :
    r.count modulus (r.start + n * r.period + rest) = (r.value + n) % modulus := by
  have hdiv : (r.start + n * r.period + rest - r.start) / r.period = n := by
    rw [show r.start + n * r.period + rest - r.start = rest + n * r.period by omega,
      Nat.add_mul_div_right _ _ pos, Nat.div_eq_of_lt lt, zero_add]
  rw [count, hdiv]

theorem wrap_succ {j : Nat} (le : r.value ≤ modulus * j) :
    r.wrap modulus (j + 1) = r.wrap modulus j + modulus * r.period := by
  rw [wrap, wrap, add_assoc, ← add_mul]
  congr 2
  rw [Nat.mul_succ]
  omega

end ReferenceCounter

structure LazyCounter where
  last : Nat
  counter : Nat

namespace LazyCounter

open ReferenceCounter

variable (c : LazyCounter) (modulus period time : Nat)

def sync : LazyCounter :=
  if (time - c.last) / period ≠ 0 then ⟨time, (c.counter + (time - c.last) / period) % modulus⟩
  else c

def OnTime : Prop := time < c.last + period ∨ period ∣ time - c.last

instance : Decidable (c.OnTime period time) := inferInstanceAs (Decidable (_ ∨ _))

def InStep (r : ReferenceCounter) : Prop :=
  ∃ n, c.last = r.start + n * r.period ∧ c.counter = (r.value + n) % modulus

variable {c modulus period time} {r : ReferenceCounter}

theorem InStep.sync (inStep : c.InStep modulus r) (pos : 0 < r.period) (past : c.last ≤ time)
    (onTime : c.OnTime r.period time) :
    (c.sync modulus r.period time).InStep modulus r ∧
      (c.sync modulus r.period time).counter = r.count modulus time := by
  obtain ⟨n, hlast, hcounter⟩ := inStep
  by_cases hshort : time < c.last + r.period
  · have hdiv : (time - c.last) / r.period = 0 := Nat.div_eq_of_lt (by omega)
    have hsync : c.sync modulus r.period time = c := if_neg (not_not.mpr hdiv)
    have htime : time = r.start + n * r.period + (time - c.last) := by omega
    rw [hsync]
    refine ⟨⟨n, hlast, hcounter⟩, ?_⟩
    rw [htime, count_add_mul pos (by omega), hcounter]
  · obtain ⟨k, hk⟩ : r.period ∣ time - c.last := onTime.resolve_left hshort
    have hdiv : (time - c.last) / r.period = k := by
      rw [hk, Nat.mul_div_cancel_left _ pos]
    have hkpos : k ≠ 0 := by
      rintro rfl
      rw [mul_zero] at hk
      omega
    have hsync : c.sync modulus r.period time = ⟨time, (c.counter + k) % modulus⟩ := by
      rw [LazyCounter.sync, hdiv, if_pos hkpos]
    have htime : time = r.start + (n + k) * r.period + 0 := by
      rw [add_mul, mul_comm k]
      omega
    have hsum : (c.counter + k) % modulus = (r.value + (n + k)) % modulus := by
      rw [hcounter, Nat.mod_add_mod, add_assoc]
    rw [hsync]
    refine ⟨⟨n + k, htime, hsum⟩, ?_⟩
    rw [htime, count_add_mul pos pos]
    exact hsum

theorem inStep_start (r : ReferenceCounter) (lt : r.value < modulus) :
    (⟨r.start, r.value⟩ : LazyCounter).InStep modulus r :=
  ⟨0, by rw [zero_mul, add_zero], (Nat.mod_eq_of_lt lt).symm⟩

theorem last_sync_le (past : c.last ≤ time) : (c.sync modulus period time).last ≤ time := by
  unfold LazyCounter.sync
  split
  · exact le_rfl
  · exact past

end LazyCounter

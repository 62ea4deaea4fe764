import WashingtonDC.Aica.Timers
import WashingtonDC.WordMask

/-!
# The interrupt line of the sound processor

The FIQ line of the ARM7 should be asserted as long as an interrupt is both pending and enabled. In
`aica.c` only the event of a timer asserts the line: `aica_update_interrupts` is empty, so that a
write to `SCIEB` does not look at the interrupts that are pending, and a write to `INTCLEAR` clears
the line whatever is still pending. Runs in which the line is right are exactly those without such
a write. A write to `SCIPD` is an error of the program. That the line is cleared when no interrupt is
left is not claimed, and it is not so.
-/
namespace Aica

open Tracked Lockstep

/-- The accesses of the timers, and a write to the register of the pending interrupts. -/
inductive IntAction
  | other (a : Action)
  | writeScipd (val : UInt32)

def Chip.Asserted (aica : Chip) : Prop :=
  aica.intPending &&& aica.intEnable ≠ 0 → aica.fiq = true

instance (aica : Chip) : Decidable aica.Asserted := inferInstanceAs (Decidable (_ → _))

structure IntMoved where
  action : IntAction
  before : Tracked
  after : Tracked

namespace Tracked

variable (s : Tracked)

def intAct : IntAction → Option Tracked
  | .other a => s.act a
  | .writeScipd _ => none

def intStep (a : IntAction) : Option (IntMoved × Tracked) :=
  (s.intAct a).map fun s' => (⟨a, s, s'⟩, s')

end Tracked

namespace IntMoved

variable (m : IntMoved)

def Asserted : Prop := m.after.aica.Asserted

instance : Decidable m.Asserted := inferInstanceAs (Decidable (Chip.Asserted _))

/-- Interrupts are enabled only while the line is asserted or they are not pending, and the line is
cleared only while nothing is pending and enabled. -/
def Keeps : Prop :=
  match m.action with
  | .other (.writeScieb val) =>
    m.before.aica.fiq = true ∨ m.before.aica.intPending &&& val = 0
  | .other (.writeIntclear val) =>
    val &&& 0xff ≠ 1 ∨ m.before.aica.intPending &&& m.before.aica.intEnable = 0
  | _ => True

end IntMoved

/-! ## One action -/

namespace Chip

variable {aica aica' : Chip} {i : TimerIdx}

theorem pending_or_intMask (disabled : aica.intEnable &&& intMask i = 0) :
    (aica.intPending ||| intMask i) &&& aica.intEnable = aica.intPending &&& aica.intEnable := by
  rw [UInt32.and_comm] at disabled
  exact WordMask.set_and_of_disjoint _ disabled

theorem Asserted.raiseTimerInt (asserted : aica.Asserted) (i : TimerIdx) :
    (aica.raiseTimerInt i).Asserted := by
  by_cases henabled : aica.intEnable &&& intMask i = 0
  · intro hpending
    have hline : (aica.raiseTimerInt i).fiq = aica.fiq := by
      simp only [Chip.raiseTimerInt, henabled, ne_eq, not_true_eq_false, if_false]
    simp only [Chip.raiseTimerInt, henabled, ne_eq, not_true_eq_false, if_false] at hpending
    rw [pending_or_intMask henabled] at hpending
    rw [hline]
    exact asserted hpending
  · intro _
    simp only [Chip.raiseTimerInt, ne_eq, henabled, not_false_eq_true, if_true]

theorem pending_clear (hpending : aica.intPending &&& ~~~val &&& aica.intEnable ≠ 0) :
    aica.intPending &&& aica.intEnable ≠ 0 := by
  intro hzero
  apply hpending
  rw [UInt32.and_assoc, UInt32.and_comm (~~~val), ← UInt32.and_assoc, hzero, UInt32.zero_and]

theorem Asserted.timerHandler (asserted : aica.Asserted)
    (handled : aica.timerHandler i = .ok aica') : aica'.Asserted := by
  simp only [Chip.timerHandler] at handled
  split at handled
  · cases handled
  · cases handled
    have hsynced : (aica.setTimer i (aica.timers i).unsched).sync.Asserted := asserted
    exact hsynced.raiseTimerInt i

end Chip

theorem Tracked.asserted_iff_keeps {s s' : Tracked} {a : IntAction}
    (asserted : s.aica.Asserted) (acted : s.intAct a = some s') :
    s'.aica.Asserted ↔ (IntMoved.mk a s s').Keeps := by
  cases a with
  | writeScipd val => cases acted
  | other a =>
    cases a with
    | advance cycles =>
      simp only [intAct, act] at acted
      split at acted
      · cases acted
        exact iff_of_true asserted trivial
      · cases acted
    | fire i =>
      simp only [intAct, act] at acted
      split at acted
      · obtain ⟨aica, handled, rfl⟩ := Option.map_eq_some_iff.mp acted
        have handled' : s.aica.timerHandler i = .ok aica := by
          cases h : s.aica.timerHandler i with
          | error e =>
            rw [h] at handled
            cases handled
          | ok b =>
            rw [h] at handled
            cases handled
            rfl
        exact iff_of_true (asserted.timerHandler handled') trivial
      · cases acted
    | readTimer i | readOther | writeTimer i val =>
      cases acted
      exact iff_of_true asserted trivial
    | writeScieb val =>
      cases acted
      simp only [Chip.Asserted, ofAica, IntMoved.Keeps]
      constructor
      · intro h
        by_cases hpending : s.aica.intPending &&& val = 0
        · exact .inr hpending
        · exact .inl (h hpending)
      · rintro (hline | hnone) hpending
        · exact hline
        · exact absurd hnone hpending
    | writeScire val =>
      cases acted
      exact iff_of_true (fun hpending => asserted (Chip.pending_clear hpending)) trivial
    | writeIntclear val =>
      cases acted
      simp only [Chip.Asserted, ofAica, IntMoved.Keeps]
      constructor
      · intro h
        by_cases hpending : s.aica.intPending &&& s.aica.intEnable = 0
        · exact .inr hpending
        · left
          have hline := h hpending
          simp only [Bool.and_eq_true, Bool.not_eq_true', decide_eq_false_iff_not] at hline
          exact hline.2
      · rintro (hkeep | hnone) hpending
        · simp [asserted hpending, hkeep]
        · exact absurd hnone hpending

/-! ## Every run -/

/-- The line is asserted after every action exactly when no write enables a pending interrupt while
the line is clear, and none clears the line while an interrupt is pending and enabled. -/
theorem Tracked.line_asserted_iff (actions : List IntAction) :
    (∀ m ∈ (run intStep init actions).1, m.Asserted) ↔
      ∀ m ∈ (run intStep init actions).1, m.Keeps := by
  apply run_observes_iff (I := fun s => s.aica.Asserted)
  · intro s a m s' moved asserted
    obtain ⟨t, acted, hmoved⟩ := Option.map_eq_some_iff.mp moved
    cases hmoved
    exact ⟨asserted_iff_keeps asserted acted, id⟩
  · show Chip.init.Asserted
    decide

def timersFire : List IntAction :=
  [.other (.advance (ticksPerSample * 256)), .other (.fire .a), .other (.fire .b)]

/-- Timer A is acknowledged and the line is cleared, and then timer B is enabled. And: the line is
cleared while timer A is pending and enabled. -/
theorem line_not_asserted :
    (¬∀ m ∈ (run Tracked.intStep init (timersFire ++
        [.other (.writeScire 0x40), .other (.writeIntclear 1), .other (.writeScieb 0x80)])).1,
        m.Asserted) ∧
      ¬∀ m ∈ (run Tracked.intStep init (timersFire ++
        [.other (.writeIntclear 1)])).1, m.Asserted := by
  constructor
  · decide +kernel
  · decide +kernel

end Aica

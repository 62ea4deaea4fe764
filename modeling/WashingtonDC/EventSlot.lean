import Mathlib.Logic.Basic

/-!
# Events that are in a list at most once

An event that belongs to a device is in the event list of its clock, with the time it is due, or
it is not. It may be added only when it is not there and removed only when it is. Programs that
use such events stop with a fault if they break this rule, or if they raise an error of their own.
-/
namespace EventSlot

inductive Fault
  | raised
  | scheduledTwice
  | cancelledAbsent
deriving DecidableEq

def Fault.misuse : Fault → Bool
  | .raised => false
  | _ => true

abbrev Slot := Option Nat

namespace Slot

def sched (slot : Slot) (due : Nat) : Except Fault Slot :=
  if slot.isSome then .error .scheduledTwice else .ok (some due)

def cancel (slot : Slot) : Except Fault Slot :=
  if slot.isSome then .ok none else .error .cancelledAbsent

def isDue (slot : Slot) (now : Nat) : Bool := slot.any (· ≤ now)

@[simp] theorem sched_none (due : Nat) : sched none due = .ok (some due) := rfl

@[simp] theorem cancel_some (due : Nat) : cancel (some due) = .ok none := rfl

end Slot

section
variable {α β : Type}

/-- The program does not break the rule, and if it comes to an end its result satisfies `P`. -/
def Sound (x : Except Fault α) (P : α → Prop) : Prop :=
  match x with
  | .ok a => P a
  | .error f => f.misuse = false

variable {x : Except Fault α} {P Q : α → Prop} {R : β → Prop}

def Misused (x : Except Fault α) : Prop := ∃ f, x = .error f ∧ f.misuse = true

section
variable (sound : Sound x P)
include sound

theorem Sound.not_misused : ¬Misused x := by
  rintro ⟨f, rfl, hf⟩
  rw [Sound, hf] at sound
  cases sound

theorem Sound.imp (weaken : ∀ a, P a → Q a) : Sound x Q := by
  cases x with
  | error f => exact sound
  | ok a => exact weaken a sound

theorem Sound.bind {f : α → Except Fault β} (rest : ∀ a, P a → Sound (f a) R) :
    Sound (x >>= f) R := by
  cases x with
  | error f => exact sound
  | ok a => exact rest a sound

theorem Sound.map {f : α → β} (rest : ∀ a, P a → R (f a)) : Sound (x.map f) R := by
  cases x with
  | error f => exact sound
  | ok a => exact rest a sound

end

section
variable {step : α → β → Except Fault α} {bad : α → β → Prop}

def TakesBad (step : α → β → Except Fault α) (bad : α → β → Prop) (bs : List β) (a : α) : Prop :=
  ∃ before b after a', bs = before ++ b :: after ∧ before.foldlM step a = .ok a' ∧ bad a' b

theorem takesBad_cons {b : β} {bs : List β} {a : α} :
    TakesBad step bad (b :: bs) a ↔ bad a b ∨ ∃ a', step a b = .ok a' ∧ TakesBad step bad bs a' := by
  constructor
  · rintro ⟨before, b', after, a', hsplit, hrun, hbad⟩
    cases before with
    | nil =>
      cases hsplit
      cases hrun
      exact .inl hbad
    | cons c before =>
      cases hsplit
      rw [List.foldlM_cons] at hrun
      cases hstep : step a b with
      | error f =>
        rw [hstep] at hrun
        cases hrun
      | ok a1 =>
        rw [hstep] at hrun
        exact .inr ⟨a1, rfl, before, b', after, a', rfl, hrun, hbad⟩
  · rintro (hbad | ⟨a1, hstep, before, b', after, a', rfl, hrun, hbad⟩)
    · exact ⟨[], b, bs, a, rfl, rfl, hbad⟩
    · refine ⟨b :: before, b', after, a', rfl, ?_, hbad⟩
      rw [List.foldlM_cons, hstep]
      exact hrun

theorem misused_foldlM (inv : α → Prop)
    (good_step : ∀ a b, inv a → ¬bad a b → Sound (step a b) inv)
    (bad_step : ∀ a b, inv a → bad a b → Misused (step a b)) (bs : List β) (a : α) (ha : inv a) :
    Misused (bs.foldlM step a) ↔ TakesBad step bad bs a := by
  induction bs generalizing a with
  | nil =>
    constructor
    · rintro ⟨f, h, -⟩
      cases h
    · rintro ⟨before, b, after, a', h, -⟩
      simp at h
  | cons b bs ih =>
    rw [List.foldlM_cons, takesBad_cons]
    by_cases hbad : bad a b
    · obtain ⟨f, hf, hm⟩ := bad_step a b ha hbad
      exact iff_of_true ⟨f, by rw [hf]; rfl, hm⟩ (.inl hbad)
    · have sound := good_step a b ha hbad
      cases hstep : step a b with
      | error f =>
        rw [hstep] at sound
        refine iff_of_false (Sound.not_misused (P := inv) sound) ?_
        rintro (h | ⟨a', h, -⟩)
        · exact hbad h
        · cases h
      | ok a1 =>
        rw [hstep] at sound
        refine (ih a1 sound).trans ?_
        constructor
        · intro h
          exact .inr ⟨a1, rfl, h⟩
        · rintro (h | ⟨a', h, rest⟩)
          · exact absurd h hbad
          · cases h
            exact rest

end

end

/-- An event together with what its device believes about it. -/
structure Flagged where
  scheduled : Bool
  event : Slot
deriving DecidableEq

namespace Flagged

variable (f : Flagged) (due : Nat)

def idle : Flagged := ⟨false, none⟩

def sched : Except Fault Flagged := (f.event.sched due).map (⟨true, ·⟩)

def unsched : Except Fault Flagged := f.event.cancel.map (⟨false, ·⟩)

def schedOnce : Except Fault Flagged := if !f.scheduled then f.sched due else .ok f

def unschedMaybe : Except Fault Flagged := if f.scheduled then f.unsched else .ok f

def pop : Flagged := { f with event := none }

def clear : Flagged := { f with scheduled := false }

def Honest : Prop := f.scheduled = f.event.isSome

variable {f due}

theorem sched_of_absent (absent : f.event = none) : f.sched due = .ok ⟨true, some due⟩ := by
  simp [sched, absent, Except.map]

theorem sched_of_present (present : f.event.isSome = true) :
    f.sched due = .error .scheduledTwice := by
  simp [sched, Slot.sched, present, Except.map]

theorem clear_honest (absent : f.event = none) : f.clear.Honest := by
  simp [Honest, clear, absent]

theorem Honest.unschedMaybe (honest : f.Honest) : f.unschedMaybe = .ok idle := by
  obtain ⟨scheduled, event⟩ := f
  cases event with
  | none | some _ =>
    cases honest
    rfl

theorem sched_sound (absent : f.event = none) : Sound (f.sched due) Honest := by
  rw [sched_of_absent absent]
  rfl

theorem Honest.schedOnce (honest : f.Honest) : Sound (f.schedOnce due) Honest := by
  unfold Flagged.schedOnce
  split
  · rename_i hflag
    apply sched_sound
    rw [Honest] at honest
    simpa [honest] using hflag
  · exact honest

end Flagged

/-- An event whose device knows whether it is in the list. -/
structure Known extends Flagged where
  honest : toFlagged.Honest

namespace Known

variable (k : Known) (due : Nat)

def idle : Known := ⟨.idle, rfl⟩

def pending : Bool := k.event.isSome

/-- `schedOnce`, which cannot fail here. -/
def request : Known := if k.scheduled then k else ⟨⟨true, some due⟩, rfl⟩

theorem schedOnce_eq : k.toFlagged.schedOnce due = .ok (k.request due).toFlagged := by
  unfold request Flagged.schedOnce
  cases hflag : k.scheduled with
  | true => rfl
  | false =>
    have habsent : k.event = none := by
      have honest := k.honest
      rw [Flagged.Honest, hflag] at honest
      exact Option.not_isSome_iff_eq_none.mp (by rw [← honest]; decide)
    exact Flagged.sched_of_absent habsent

theorem clear_pop_eq : k.toFlagged.pop.clear = idle.toFlagged := rfl

theorem event_request : (k.request due).event = some (k.event.getD due) := by
  obtain ⟨⟨scheduled, event⟩, honest⟩ := k
  cases event with
  | none | some _ =>
    cases honest
    rfl

@[simp] theorem pending_request : (k.request due).pending = true := by
  rw [pending, event_request]
  rfl

end Known

section
variable {ε α β : Type}

theorem bind_eq_ok {x : Except ε α} {f : α → Except ε β} {b : β} (h : x >>= f = .ok b) :
    ∃ a, x = .ok a ∧ f a = .ok b := by
  cases x with
  | error e => cases h
  | ok a => exact ⟨a, rfl, h⟩

theorem map_eq_ok {x : Except ε α} {f : α → β} {b : β} (h : x.map f = .ok b) :
    ∃ a, x = .ok a ∧ f a = b := by
  cases x with
  | error e => cases h
  | ok a => exact ⟨a, rfl, Except.ok.inj h⟩

end

end EventSlot

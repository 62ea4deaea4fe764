import WashingtonDC.DcSched
import Mathlib.Algebra.Group.Nat.Hom

/-!
# One timeslice of a clock

`dc_clock_run_timeslice` alternates between a dispatch function, which runs a CPU up to
the target stamp, and the handler of the event that is due. The CPUs and the handlers
are parameters: any code whose only effect on the clock is to schedule events at or
after the current stamp and to cancel events. The debugger's dispatch functions and the
native dispatcher are not covered.
-/
namespace Timeslice

open DcSched Option Finset

set_option linter.unusedSectionVars false

variable {Machine Event Cell α : Type} [DecidableEq Event] [DecidableEq Cell]

def schedFrequency : DcCycleStamp := 5400000000

def dcTimeslice : DcCycleStamp := schedFrequency / 400

def arm7ClockScale : DcCycleStamp := schedFrequency / (10 * 1000 * 1000)

/-- Code that works on the machine and the clock; `none` when it never returns, which
includes `RAISE_ERROR`. -/
abbrev Action (Machine Event Cell α : Type) : Type :=
  Machine → DcClock Event Cell → Option (α × Machine × DcClock Event Cell)

/-- The code the scheduler runs. `sh4CountInst` reads and decodes an instruction and
counts its cycles, `codeBlockIntpExec` finds, compiles and runs a block, and answers with
its `cycle_count`. -/
structure Code (Machine Event Cell : Type) where
  sh4CountInst : Action Machine Event Cell UInt32
  sh4DoExecInst : Action Machine Event Cell Unit
  codeBlockIntpExec : Action Machine Event Cell UInt32
  arm7Enabled : Machine → Bool
  arm7Exec : Action Machine Event Cell UInt32
  handler : Event → Action Machine Event Cell Unit

variable (code : Code Machine Event Cell)

/-- The loop of `run_to_next_sh4_event`. -/
def sh4Loop : Nat → DcCycleStamp → Machine → DcClock Event Cell →
    Option (Machine × DcClock Event Cell)
  | 0, _, _, _ => none
  | fuel + 1, tgtStamp, machine, clock =>
    if tgtStamp > clock.cycleStamp then do
      let (instCycles, machine, clock) ← code.sh4CountInst machine clock
      let cyclesAfter := clock.cycleStamp + instCycles.toUInt64 * sh4ClockScale
      let ((), machine, clock) ← code.sh4DoExecInst machine clock
      let tgtStamp := clock.targetStamp
      let cyclesAfter := if cyclesAfter > tgtStamp then tgtStamp else cyclesAfter
      sh4Loop fuel tgtStamp machine (clock.setCycleStamp cyclesAfter)
    else some (machine, clock)

def runToNextSh4Event (fuel : Nat) : Action Machine Event Cell Bool := fun machine clock => do
  let (machine, clock) ← sh4Loop code fuel clock.targetStamp machine clock
  return (false, machine, clock)

/-- The loop of `run_to_next_sh4_event_jit`; it may leave the stamp past the target. -/
def sh4JitLoop : Nat → DcCycleStamp → Machine → DcClock Event Cell →
    Option (DcCycleStamp × Machine × DcClock Event Cell)
  | 0, _, _, _ => none
  | fuel + 1, tgtStamp, machine, clock =>
    if tgtStamp > clock.cycleStamp then do
      let (cycleCount, machine, clock) ← code.codeBlockIntpExec machine clock
      let cyclesAfter := clock.cycleStamp + cycleCount.toUInt64
      let clock := clock.setCycleStamp cyclesAfter
      sh4JitLoop fuel clock.targetStamp machine clock
    else some (tgtStamp, machine, clock)

def runToNextSh4EventJit (fuel : Nat) : Action Machine Event Cell Bool := fun machine clock => do
  let (tgtStamp, machine, clock) ← sh4JitLoop code fuel clock.targetStamp machine clock
  if clock.cycleStamp > tgtStamp then return (false, machine, clock.setCycleStamp tgtStamp)
  else return (false, machine, clock)

/-- The loop of `run_to_next_arm7_event`. -/
def arm7Loop : Nat → DcCycleStamp → Machine → DcClock Event Cell →
    Option (Machine × DcClock Event Cell)
  | 0, _, _, _ => none
  | fuel + 1, tgtStamp, machine, clock =>
    if tgtStamp > clock.cycleStamp then do
      let (instCycles, machine, clock) ← code.arm7Exec machine clock
      let cyclesAfter := clock.cycleStamp + instCycles.toUInt64 * arm7ClockScale
      let tgtStamp := clock.targetStamp
      let cyclesAfter := if cyclesAfter > tgtStamp then tgtStamp else cyclesAfter
      arm7Loop fuel tgtStamp machine (clock.setCycleStamp cyclesAfter)
    else some (machine, clock)

def runToNextArm7Event (fuel : Nat) : Action Machine Event Cell Bool := fun machine clock =>
  if code.arm7Enabled machine then do
    let (machine, clock) ← arm7Loop code fuel clock.targetStamp machine clock
    return (false, machine, clock)
  else some (false, machine, clock.setCycleStamp clock.targetStamp)

/-- The value of `clk->dispatch`. -/
inductive Dispatch where
  | runToNextSh4Event
  | runToNextSh4EventJit
  | runToNextArm7Event

def dispatch (fuel : Nat) : Dispatch → Action Machine Event Cell Bool
  | .runToNextSh4Event => runToNextSh4Event code fuel
  | .runToNextSh4EventJit => runToNextSh4EventJit code fuel
  | .runToNextArm7Event => runToNextArm7Event code fuel

/-- What an observer of the cycle stamp sees. -/
inductive Mark (Event : Type) where
  | dispatch (stamp : DcCycleStamp)
  | dispatched (stamp : DcCycleStamp)
  | handler (event : Event) (due stamp : DcCycleStamp)
  | handled (stamp : DcCycleStamp)

def Mark.stamp : Mark Event → DcCycleStamp
  | .dispatch stamp => stamp
  | .dispatched stamp => stamp
  | .handler _ _ stamp => stamp
  | .handled stamp => stamp

/-- The marks made so far, and what the function returned if it did. -/
structure Outcome (Machine Event Cell : Type) where
  trace : List (Mark Event)
  returned : Option (Bool × Machine × DcClock Event Cell)

def Outcome.after (marks : List (Mark Event)) (outcome : Outcome Machine Event Cell) :
    Outcome Machine Event Cell :=
  { outcome with trace := marks ++ outcome.trace }

/-- The loop of `dc_clock_run_timeslice`. An empty queue would dereference a null event. -/
def timesliceLoop (kind : Dispatch) (inner : Nat) : Nat → Machine → DcClock Event Cell →
    Outcome Machine Event Cell
  | 0, _, _ => ⟨[], none⟩
  | fuel + 1, machine, clock =>
    match dispatch code inner kind machine clock with
    | none => ⟨[.dispatch clock.cycleStamp], none⟩
    | some (retVal, machine, clock₁) =>
      let marks := [.dispatch clock.cycleStamp, .dispatched clock₁.cycleStamp]
      if retVal then ⟨marks, some (true, machine, clock₁)⟩
      else
        match popEvent clock₁ with
        | (_, none) => ⟨marks, none⟩
        | (clock₂, some nextEvent) =>
          if nextEvent ≠ clock₂.timesliceEndEvent then
            let marks := marks ++
              [.handler nextEvent (clock₂.whenOf nextEvent) clock₂.cycleStamp]
            match code.handler nextEvent machine clock₂ with
            | none => ⟨marks, none⟩
            | some ((), machine, clock₃) =>
              (timesliceLoop kind inner fuel machine clock₃).after
                (marks ++ [.handled clock₃.cycleStamp])
          else ⟨marks, some (false, machine, clock₂)⟩

def dcClockRunTimeslice (kind : Dispatch) (fuel inner : Nat) (machine : Machine)
    (clock : DcClock Event Cell) : Outcome Machine Event Cell :=
  let ts := clock.cycleStamp + dcTimeslice
  match schedEvent fuel (clock.setWhen clock.timesliceEndEvent ts) clock.timesliceEndEvent with
  | none => ⟨[], none⟩
  | some clock => timesliceLoop code kind inner fuel machine clock

/-! ## What the rest of the emulator may do to a clock -/

/-- One call made by CPU code or by a handler. The timeslice event is private to the
scheduler. -/
inductive EnvStep : DcClock Event Cell × Finset Event → DcClock Event Cell × Finset Event → Prop
  | schedEvent {clock clock' scheduled event fuel} (fresh : event ∉ scheduled)
      (other : event ≠ clock.timesliceEndEvent) (late : clock.cycleStamp ≤ clock.whenOf event)
      (returned : schedEvent fuel clock event = some clock') :
      EnvStep (clock, scheduled) (clock', insert event scheduled)
  | cancelEvent {clock clock' scheduled event} (here : event ∈ scheduled)
      (other : event ≠ clock.timesliceEndEvent)
      (returned : cancelEvent clock event = some clock') :
      EnvStep (clock, scheduled) (clock', scheduled.erase event)
  | setWhen {clock scheduled event stamp} (fresh : event ∉ scheduled)
      (other : event ≠ clock.timesliceEndEvent) :
      EnvStep (clock, scheduled) (clock.setWhen event stamp, scheduled)

def Polite (action : Action Machine Event Cell α) : Prop :=
  ∀ machine clock scheduled answer machine' clock', Valid clock scheduled →
    action machine clock = some (answer, machine', clock') →
    ∃ scheduled', Relation.ReflTransGen EnvStep (clock, scheduled) (clock', scheduled')

structure Code.Polite (code : Code Machine Event Cell) : Prop where
  sh4CountInst : Timeslice.Polite code.sh4CountInst
  sh4DoExecInst : Timeslice.Polite code.sh4DoExecInst
  codeBlockIntpExec : Timeslice.Polite code.codeBlockIntpExec
  arm7Exec : Timeslice.Polite code.arm7Exec
  handler : ∀ event, Timeslice.Polite (code.handler event)

/-- No scheduled event is in the past. -/
structure Punctual (clock : DcClock Event Cell) (scheduled : Finset Event) : Prop where
  valid : Valid clock scheduled
  pending : ∀ event ∈ scheduled, clock.cycleStamp ≤ clock.whenOf event

/-- What calls of the rest of the emulator leave alone. -/
structure Kept (before after : DcClock Event Cell × Finset Event) : Prop where
  cycleStamp : after.1.cycleStamp = before.1.cycleStamp
  timesliceEndEvent : after.1.timesliceEndEvent = before.1.timesliceEndEvent
  scheduled : before.1.timesliceEndEvent ∈ after.2 ↔ before.1.timesliceEndEvent ∈ before.2
  due : after.1.whenOf before.1.timesliceEndEvent = before.1.whenOf before.1.timesliceEndEvent

theorem Kept.trans {x y z : DcClock Event Cell × Finset Event} (hxy : Kept x y)
    (hyz : Kept y z) : Kept x z where
  cycleStamp := hyz.cycleStamp.trans hxy.cycleStamp
  timesliceEndEvent := hyz.timesliceEndEvent.trans hxy.timesliceEndEvent
  scheduled := by
    have := hyz.scheduled
    rw [hxy.timesliceEndEvent] at this
    exact this.trans hxy.scheduled
  due := by
    have := hyz.due
    rw [hxy.timesliceEndEvent] at this
    exact this.trans hxy.due

variable {before after : DcClock Event Cell × Finset Event}

theorem envStep_punctual (step : EnvStep before after) (punctual : Punctual before.1 before.2) :
    Punctual after.1 after.2 ∧ Kept before after := by
  obtain ⟨valid, pending⟩ := punctual
  cases step with
  | @schedEvent clock clock' scheduled event fuel fresh other late returned =>
    obtain ⟨valid', same⟩ := schedEvent_returned valid fresh returned
    refine ⟨⟨valid', ?_⟩, same.cycleStamp, same.timesliceEndEvent, ?_, ?_⟩
    · intro e he
      simp only [same.cycleStamp, same.whenOf]
      rcases mem_insert.mp he with rfl | he
      · exact late
      · exact pending e he
    · simp [Ne.symm other]
    · simp only [same.whenOf]
  | @cancelEvent clock clock' scheduled event here other returned =>
    obtain ⟨clock'', hcancel, valid', same⟩ := cancelEvent_valid valid here
    obtain rfl := Option.some.inj (returned.symm.trans hcancel)
    refine ⟨⟨valid', ?_⟩, same.cycleStamp, same.timesliceEndEvent, ?_, ?_⟩
    · intro e he
      simp only [same.cycleStamp, same.whenOf]
      exact pending e (mem_of_mem_erase he)
    · simp [Ne.symm other]
    · simp only [same.whenOf]
  | @setWhen clock scheduled event stamp fresh other =>
    refine ⟨⟨valid.setWhen fresh stamp, ?_⟩, rfl, rfl, Iff.rfl, ?_⟩
    · intro e he
      have hne : e ≠ event := fun heq => fresh (heq ▸ he)
      simpa [DcClock.setWhen, DcClock.cycleStamp, hne] using pending e he
    · simp [DcClock.setWhen, Ne.symm other]

theorem envSteps_punctual (steps : Relation.ReflTransGen EnvStep before after)
    (punctual : Punctual before.1 before.2) :
    Punctual after.1 after.2 ∧ Kept before after := by
  induction steps with
  | refl => exact ⟨punctual, rfl, rfl, Iff.rfl, rfl⟩
  | tail _ step ih =>
    obtain ⟨hpunctual, hkept⟩ := envStep_punctual step ih.1
    exact ⟨hpunctual, ih.2.trans hkept⟩

/-- Inside a timeslice that ends at `ts`. -/
structure Running (ts : DcCycleStamp) (clock : DcClock Event Cell) (scheduled : Finset Event) :
    Prop extends Punctual clock scheduled where
  slice : clock.timesliceEndEvent ∈ scheduled
  due : clock.whenOf clock.timesliceEndEvent = ts

/-- Between two timeslices. -/
structure Ready (clock : DcClock Event Cell) (scheduled : Finset Event) : Prop
    extends Punctual clock scheduled where
  slice : clock.timesliceEndEvent ∉ scheduled

theorem setCycleStamp_setCycleStamp (clock : DcClock Event Cell) (stamp val : DcCycleStamp) :
    (clock.setCycleStamp stamp).setCycleStamp val = clock.setCycleStamp val := by
  simp only [DcClock.setCycleStamp, Stamps.setCycleStamp_setCycleStamp]

theorem setCycleStamp_cycleStamp (clock : DcClock Event Cell) :
    clock.setCycleStamp clock.cycleStamp = clock := by
  simp only [DcClock.setCycleStamp, DcClock.cycleStamp, Stamps.setCycleStamp_cycleStamp]

/-- The cycles added in one go do not wrap a stamp of this timeslice. -/
def Room (ts : DcCycleStamp) : Prop := ts.toNat + 540 * 2 ^ 32 ≤ 2 ^ 64

/-- The clock stands at the stamp of the next event, later than before. -/
def Due (ts : DcCycleStamp) (before after : DcClock Event Cell) : Prop :=
  ∃ scheduled, Running ts after scheduled ∧ before.cycleStamp ≤ after.cycleStamp ∧
    after.cycleStamp = after.targetStamp

variable {ts : DcCycleStamp} {trace : List (Mark Event)} {scheduled : Finset Event}
  {clock clock' : DcClock Event Cell}

theorem Due.trans {before between after : DcClock Event Cell}
    (le : before.cycleStamp ≤ between.cycleStamp) (due : Due ts between after) :
    Due ts before after := by
  obtain ⟨scheduled, running, hle, hdue⟩ := due
  exact ⟨scheduled, running, UInt64.le_trans le hle, hdue⟩

section
variable (running : Running ts clock scheduled)
include running

theorem Running.head : ∃ event, clock.evNextPriv = some event := by
  apply ne_none_iff_exists'.mp
  intro head
  have hempty := running.valid.head_none_iff.mp head
  exact absurd (hempty ▸ running.slice) (notMem_empty _)

theorem Running.target : clock.cycleStamp ≤ clock.targetStamp ∧ clock.targetStamp ≤ ts := by
  obtain ⟨event, head⟩ := running.head
  obtain ⟨here, least⟩ := running.valid.head_least head
  rw [running.valid.target event head]
  exact ⟨running.pending event here, running.due ▸ least _ running.slice⟩

theorem Running.polite {action : Action Machine Event Cell α} (polite : Polite action)
    {machine machine' : Machine} {answer : α}
    (returned : action machine clock = some (answer, machine', clock')) :
    clock'.cycleStamp = clock.cycleStamp ∧ ∃ scheduled', Running ts clock' scheduled' := by
  obtain ⟨scheduled', steps⟩ := polite _ _ _ _ _ _ running.valid returned
  obtain ⟨punctual, kept⟩ := envSteps_punctual steps running.toPunctual
  refine ⟨kept.cycleStamp, scheduled', punctual, ?_, ?_⟩
  · rw [kept.timesliceEndEvent]
    exact kept.scheduled.mpr running.slice
  · rw [kept.timesliceEndEvent]
    exact kept.due.trans running.due

theorem Running.setCycleStamp {val : DcCycleStamp} (le : val ≤ clock.targetStamp) :
    Running ts (clock.setCycleStamp val) scheduled := by
  have valid : Valid (clock.setCycleStamp val) scheduled :=
    running.valid.restamp (Stamps.separate_setCycleStamp _ running.valid.separate)
      (Stamps.targetStamp_setCycleStamp _ running.valid.separate)
  refine ⟨⟨valid, fun event here => ?_⟩, running.slice, running.due⟩
  have hstamp : (clock.setCycleStamp val).cycleStamp = val := Stamps.cycleStamp_setCycleStamp _
  rw [hstamp]
  obtain ⟨first, head⟩ := running.head
  rw [running.valid.target first head] at le
  exact UInt64.le_trans le ((running.valid.head_least head).2 event here)

theorem Running.targetStamp_setCycleStamp (val : DcCycleStamp) :
    (clock.setCycleStamp val).targetStamp = clock.targetStamp :=
  Stamps.targetStamp_setCycleStamp val running.valid.separate

theorem Running.le_add_cycles {scale : DcCycleStamp} (room : Room ts) (small : scale.toNat ≤ 540)
    (cycles : UInt32) :
    clock.cycleStamp ≤ clock.cycleStamp + cycles.toUInt64 * scale := by
  have hcycles : cycles.toNat ≤ 2 ^ 32 - 1 := Nat.le_pred_of_lt cycles.toNat_lt
  have hmul : cycles.toNat * scale.toNat ≤ (2 ^ 32 - 1) * 540 := Nat.mul_le_mul hcycles small
  have hle : clock.cycleStamp.toNat ≤ ts.toNat :=
    UInt64.le_trans running.target.1 running.target.2
  rw [UInt64.le_iff_toNat_le, UInt64.toNat_add, UInt64.toNat_mul, UInt32.toNat_toUInt64]
  unfold Room at room
  omega

theorem Running.due_here (late : ¬clock.targetStamp > clock.cycleStamp) : Due ts clock clock :=
  ⟨scheduled, running, UInt64.le_refl _,
    UInt64.le_antisymm running.target.1 (UInt64.not_lt.mp late)⟩

theorem Running.clamp : Due ts clock (clock.setCycleStamp clock.targetStamp) := by
  have hstamp : (clock.setCycleStamp clock.targetStamp).cycleStamp = clock.targetStamp :=
    Stamps.cycleStamp_setCycleStamp _
  refine ⟨scheduled, running.setCycleStamp (UInt64.le_refl _), ?_, ?_⟩
  · rw [hstamp]
    exact running.target.1
  · rw [hstamp, running.targetStamp_setCycleStamp]

theorem Running.advance {stamp : DcCycleStamp} (le : clock.cycleStamp ≤ stamp) :
    let next := clock.setCycleStamp
      (if stamp > clock.targetStamp then clock.targetStamp else stamp)
    Running ts next scheduled ∧ clock.cycleStamp ≤ next.cycleStamp ∧
      clock.targetStamp = next.targetStamp := by
  intro next
  have hstamp : next.cycleStamp = if stamp > clock.targetStamp then clock.targetStamp else stamp :=
    Stamps.cycleStamp_setCycleStamp _
  have htarget : clock.targetStamp = next.targetStamp :=
    (running.targetStamp_setCycleStamp _).symm
  rw [hstamp]
  by_cases past : stamp > clock.targetStamp
  · simp only [next, past, ↓reduceIte] at htarget ⊢
    exact ⟨running.setCycleStamp (UInt64.le_refl _), running.target.1, htarget⟩
  · simp only [next, past, ↓reduceIte] at htarget ⊢
    exact ⟨running.setCycleStamp (UInt64.not_lt.mp past), le, htarget⟩

end

variable {code : Code Machine Event Cell}

section Loops

variable {tgtStamp : DcCycleStamp} {fuel : Nat} {machine machine' : Machine}
  (polite : code.Polite) (room : Room ts) (running : Running ts clock scheduled)
include polite room running

theorem sh4Loop_due (target : tgtStamp = clock.targetStamp)
    (returned : sh4Loop code fuel tgtStamp machine clock = some (machine', clock')) :
    Due ts clock clock' := by
  induction fuel generalizing machine clock scheduled tgtStamp with
  | zero => cases returned
  | succ fuel ih =>
    subst target
    by_cases early : clock.targetStamp > clock.cycleStamp
    · simp only [sh4Loop, early, ↓reduceIte, bind_eq_bind, bind_eq_some_iff,
        Prod.exists] at returned
      obtain ⟨cycles, machine₁, clock₁, hcount, _, machine₂, clock₂, hexec, hloop⟩ := returned
      obtain ⟨hstamp₁, scheduled₁, running₁⟩ := running.polite polite.sh4CountInst hcount
      obtain ⟨hstamp₂, scheduled₂, running₂⟩ := running₁.polite polite.sh4DoExecInst hexec
      have hcycles := running₁.le_add_cycles room (show sh4ClockScale.toNat ≤ 540 by decide) cycles
      rw [← hstamp₂] at hcycles
      obtain ⟨running₃, hle, htarget⟩ := running₂.advance hcycles
      rw [← hstamp₂] at hloop
      exact (ih running₃ htarget hloop).trans ((hstamp₂.trans hstamp₁) ▸ hle)
    · rw [sh4Loop, if_neg early] at returned
      cases returned
      exact running.due_here early

theorem arm7Loop_due (target : tgtStamp = clock.targetStamp)
    (returned : arm7Loop code fuel tgtStamp machine clock = some (machine', clock')) :
    Due ts clock clock' := by
  induction fuel generalizing machine clock scheduled tgtStamp with
  | zero => cases returned
  | succ fuel ih =>
    subst target
    by_cases early : clock.targetStamp > clock.cycleStamp
    · simp only [arm7Loop, early, ↓reduceIte, bind_eq_bind, bind_eq_some_iff,
        Prod.exists] at returned
      obtain ⟨cycles, machine₁, clock₁, hexec, hloop⟩ := returned
      obtain ⟨hstamp₁, scheduled₁, running₁⟩ := running.polite polite.arm7Exec hexec
      have hcycles := running₁.le_add_cycles room (show arm7ClockScale.toNat ≤ 540 by decide) cycles
      obtain ⟨running₂, hle, htarget⟩ := running₁.advance hcycles
      exact (ih running₂ htarget hloop).trans (hstamp₁ ▸ hle)
    · rw [arm7Loop, if_neg early] at returned
      cases returned
      exact running.due_here early

theorem sh4JitLoop_due (target : tgtStamp = clock.targetStamp) {tgtStamp' : DcCycleStamp}
    (returned : sh4JitLoop code fuel tgtStamp machine clock = some (tgtStamp', machine', clock')) :
    tgtStamp' ≤ clock'.cycleStamp ∧ Due ts clock (clock'.setCycleStamp tgtStamp') := by
  induction fuel generalizing machine clock scheduled tgtStamp with
  | zero => cases returned
  | succ fuel ih =>
    subst target
    by_cases early : clock.targetStamp > clock.cycleStamp
    · simp only [sh4JitLoop, early, ↓reduceIte, bind_eq_bind, bind_eq_some_iff,
        Prod.exists] at returned
      obtain ⟨cycles, machine₁, clock₁, hexec, hloop⟩ := returned
      obtain ⟨hstamp₁, scheduled₁, running₁⟩ := running.polite polite.codeBlockIntpExec hexec
      have hcycles := running₁.le_add_cycles room
        (show (1 : DcCycleStamp).toNat ≤ 540 by decide) cycles
      rw [UInt64.mul_one] at hcycles
      let stamp := clock₁.cycleStamp + cycles.toUInt64
      have hstamp : (clock₁.setCycleStamp stamp).cycleStamp = stamp :=
        Stamps.cycleStamp_setCycleStamp _
      by_cases past : stamp ≤ clock₁.targetStamp
      · obtain ⟨hpast, hdue⟩ := ih (running₁.setCycleStamp past) rfl hloop
        refine ⟨hpast, hdue.trans ?_⟩
        rw [hstamp, ← hstamp₁]
        exact hcycles
      · have hexit : ¬clock₁.targetStamp > (clock₁.setCycleStamp stamp).cycleStamp := by
          rw [hstamp]
          exact fun h => past (UInt64.le_of_lt h)
        rw [running₁.targetStamp_setCycleStamp] at hloop
        cases fuel with
        | zero => cases hloop
        | succ fuel =>
          rw [sh4JitLoop, if_neg hexit] at hloop
          cases hloop
          refine ⟨UInt64.not_lt.mp hexit, ?_⟩
          rw [setCycleStamp_setCycleStamp]
          exact running₁.clamp.trans (hstamp₁ ▸ UInt64.le_refl _)
    · rw [sh4JitLoop, if_neg early] at returned
      cases returned
      exact ⟨UInt64.not_lt.mp early, running.clamp⟩

theorem dispatch_due {kind : Dispatch} {retVal : Bool}
    (returned : dispatch code fuel kind machine clock = some (retVal, machine', clock')) :
    retVal = false ∧ Due ts clock clock' := by
  cases kind with
  | runToNextSh4Event =>
    simp only [dispatch, runToNextSh4Event, bind_eq_bind, bind_eq_some_iff,
      Prod.exists, Option.pure_def, Option.some.injEq, Prod.mk.injEq] at returned
    obtain ⟨machine₁, clock₁, hloop, rfl, -, rfl⟩ := returned
    exact ⟨rfl, sh4Loop_due polite room running rfl hloop⟩
  | runToNextSh4EventJit =>
    simp only [dispatch, runToNextSh4EventJit, bind_eq_bind, bind_eq_some_iff,
      Prod.exists] at returned
    obtain ⟨tgtStamp, machine₁, clock₁, hloop, hclamp⟩ := returned
    obtain ⟨hpast, hdue⟩ := sh4JitLoop_due polite room running rfl hloop
    by_cases passed : clock₁.cycleStamp > tgtStamp
    · rw [if_pos passed] at hclamp
      cases hclamp
      exact ⟨rfl, hdue⟩
    · rw [if_neg passed] at hclamp
      cases hclamp
      have hsame : tgtStamp = clock'.cycleStamp :=
        UInt64.le_antisymm hpast (UInt64.not_lt.mp passed)
      rw [hsame, setCycleStamp_cycleStamp] at hdue
      exact ⟨rfl, hdue⟩
  | runToNextArm7Event =>
    by_cases enabled : code.arm7Enabled machine
    · simp only [dispatch, runToNextArm7Event, enabled, ↓reduceIte, bind_eq_bind,
        bind_eq_some_iff, Prod.exists, Option.pure_def, Option.some.injEq,
        Prod.mk.injEq] at returned
      obtain ⟨machine₁, clock₁, hloop, rfl, -, rfl⟩ := returned
      exact ⟨rfl, arm7Loop_due polite room running rfl hloop⟩
    · rw [dispatch, runToNextArm7Event, if_neg enabled] at returned
      cases returned
      exact ⟨rfl, running.clamp⟩

end Loops

/-- The stamps seen never decrease from `start`, and a handler starts when it is due. -/
structure Orderly (start : DcCycleStamp) (trace : List (Mark Event)) : Prop where
  from_start : ∀ mark ∈ trace, start ≤ mark.stamp
  ordered : trace.Pairwise (fun a b => a.stamp ≤ b.stamp)
  on_time : ∀ event due stamp, Mark.handler event due stamp ∈ trace → stamp = due

theorem Orderly.nil (start : DcCycleStamp) : Orderly start ([] : List (Mark Event)) :=
  ⟨nofun, List.Pairwise.nil, nofun⟩

theorem Orderly.cons {start : DcCycleStamp} {mark : Mark Event} (le : start ≤ mark.stamp)
    (onTime : ∀ event due stamp, mark = .handler event due stamp → stamp = due)
    (tail : Orderly mark.stamp trace) : Orderly start (mark :: trace) where
  from_start := by
    intro other hother
    rcases List.mem_cons.mp hother with rfl | hother
    · exact le
    · exact UInt64.le_trans le (tail.from_start other hother)
  ordered := List.pairwise_cons.mpr ⟨tail.from_start, tail.ordered⟩
  on_time := by
    intro event due stamp hmem
    rcases List.mem_cons.mp hmem with heq | hmem
    · exact onTime event due stamp heq.symm
    · exact tail.on_time event due stamp hmem

theorem Running.popEvent {popped : Option Event}
    (running : Running ts clock scheduled) (here : clock.cycleStamp = clock.targetStamp)
    (returned : popEvent clock = (clock', popped)) :
    ∃ event, popped = some event ∧ clock'.cycleStamp = clock.cycleStamp ∧
      clock'.cycleStamp = clock'.whenOf event ∧
      (event ≠ clock'.timesliceEndEvent → Running ts clock' (scheduled.erase event)) ∧
      (event = clock'.timesliceEndEvent →
        clock'.cycleStamp = ts ∧ Ready clock' (scheduled.erase event)) := by
  obtain ⟨event, head⟩ := running.head
  obtain ⟨clock₁, hpop, valid, same⟩ := popEvent_valid running.valid head
  obtain ⟨rfl, rfl⟩ := Prod.mk.inj (returned.symm.trans hpop)
  have punctual : Punctual clock' (scheduled.erase event) := by
    refine ⟨valid, fun other hother => ?_⟩
    rw [same.cycleStamp, same.whenOf]
    exact running.pending other (mem_of_mem_erase hother)
  refine ⟨event, rfl, same.cycleStamp, ?_, fun hne => ⟨punctual, ?_, ?_⟩, fun heq => ⟨?_, ?_⟩⟩
  · rw [same.cycleStamp, same.whenOf, here, running.valid.target event head]
  · rw [same.timesliceEndEvent] at hne ⊢
    exact mem_erase.mpr ⟨Ne.symm hne, running.slice⟩
  · rw [same.timesliceEndEvent, same.whenOf]
    exact running.due
  · rw [same.cycleStamp, here, running.valid.target event head, heq, same.timesliceEndEvent]
    exact running.due
  · refine ⟨punctual, ?_⟩
    rw [← heq]
    exact notMem_erase event scheduled

/-- What a timeslice that ends at `ts` may show and return. -/
structure Keeps (ts start : DcCycleStamp) (outcome : Outcome Machine Event Cell) : Prop where
  orderly : Orderly start outcome.trace
  returned : ∀ retVal machine clock, outcome.returned = some (retVal, machine, clock) →
    retVal = false ∧ clock.cycleStamp = ts ∧ ∃ scheduled, Ready clock scheduled

theorem timesliceLoop_keeps (polite : code.Polite) (room : Room ts) (kind : Dispatch)
    (inner fuel : Nat) {machine : Machine} (running : Running ts clock scheduled) :
    Keeps ts clock.cycleStamp (timesliceLoop code kind inner fuel machine clock) := by
  induction fuel generalizing machine clock scheduled with
  | zero => exact ⟨Orderly.nil _, nofun⟩
  | succ fuel ih =>
    unfold timesliceLoop
    split
    · exact ⟨(Orderly.nil _).cons (UInt64.le_refl _) nofun, nofun⟩
    · rename_i retVal machine₁ clock₁ hdispatch
      obtain ⟨rfl, scheduled₁, running₁, hle₁, hdue⟩ := dispatch_due polite room running hdispatch
      have marks : ∀ trace : List (Mark Event), Orderly clock₁.cycleStamp trace →
          Orderly clock.cycleStamp
            (.dispatch clock.cycleStamp :: .dispatched clock₁.cycleStamp :: trace) :=
        fun _ tail => .cons (UInt64.le_refl _) nofun (.cons hle₁ nofun tail)
      rcases hpop : popEvent clock₁ with ⟨clock₂, popped⟩
      obtain ⟨event, rfl, hstamp₂, hwhen, hother, hend⟩ := running₁.popEvent hdue hpop
      simp only [Bool.false_eq_true, ↓reduceIte]
      by_cases other : event ≠ clock₂.timesliceEndEvent
      · simp only [other, ne_eq, not_false_eq_true, ↓reduceIte]
        have running₂ := hother other
        have start : ∀ trace, Orderly clock₂.cycleStamp trace → Orderly clock₁.cycleStamp
            (.handler event (clock₂.whenOf event) clock₂.cycleStamp :: trace) := by
          intro trace tail
          refine .cons (hstamp₂ ▸ UInt64.le_refl _) ?_ tail
          rintro _ _ _ ⟨rfl, rfl, rfl⟩
          exact hwhen
        split
        · exact ⟨marks _ (start _ (Orderly.nil _)), nofun⟩
        · rename_i machine₃ clock₃ hhandler
          obtain ⟨hstamp₃, scheduled₃, running₃⟩ := running₂.polite (polite.handler event) hhandler
          obtain ⟨horderly, hreturned⟩ := ih running₃
          refine ⟨?_, hreturned⟩
          exact marks _ (start _ (.cons (hstamp₃ ▸ UInt64.le_refl _) nofun horderly))
      · simp only [other, ↓reduceIte]
        refine ⟨marks _ (Orderly.nil _), ?_⟩
        rintro _ _ _ ⟨rfl, rfl, rfl⟩
        obtain ⟨hts, ready⟩ := hend (not_not.mp other)
        exact ⟨rfl, hts, _, ready⟩

def Mark.due? : Mark Event → Option DcCycleStamp
  | .handler _ due _ => some due
  | _ => none

theorem Orderly.due_ordered {start : DcCycleStamp} (orderly : Orderly start trace) :
    (trace.filterMap Mark.due?).Pairwise (· ≤ ·) := by
  have stamp_due : ∀ mark ∈ trace, ∀ due, mark.due? = some due → mark.stamp = due := by
    intro mark hmark due hdue
    cases mark with
    | handler event due' stamp =>
      cases hdue
      exact orderly.on_time event due stamp hmark
    | _ => cases hdue
  rw [List.pairwise_filterMap]
  refine orderly.ordered.imp_of_mem ?_
  intro a b ha hb hab due hdue due' hdue'
  rw [stamp_due a ha due hdue, stamp_due b hb due' hdue'] at hab
  exact hab

theorem Ready.start {fuel : Nat} (ready : Ready clock scheduled)
    (room : clock.cycleStamp.toNat + dcTimeslice.toNat + 540 * 2 ^ 32 ≤ 2 ^ 64)
    (returned : schedEvent fuel (clock.setWhen clock.timesliceEndEvent (clock.cycleStamp + dcTimeslice)) clock.timesliceEndEvent = some clock') :
    Room (clock.cycleStamp + dcTimeslice) ∧ clock'.cycleStamp = clock.cycleStamp ∧
      Running (clock.cycleStamp + dcTimeslice) clock'
        (insert clock.timesliceEndEvent scheduled) := by
  have hnat : (clock.cycleStamp + dcTimeslice).toNat =
      clock.cycleStamp.toNat + dcTimeslice.toNat := by
    rw [UInt64.toNat_add]
    omega
  obtain ⟨valid, same⟩ :=
    schedEvent_returned (ready.valid.setWhen ready.slice _) ready.slice returned
  have hwhen : ∀ event ∈ scheduled, clock'.whenOf event = clock.whenOf event := by
    intro event here
    have hne : event ≠ clock.timesliceEndEvent := fun heq => ready.slice (heq ▸ here)
    simp [same.whenOf, DcClock.setWhen, hne]
  have hend : clock'.whenOf clock.timesliceEndEvent = clock.cycleStamp + dcTimeslice := by
    simp [same.whenOf, DcClock.setWhen]
  refine ⟨?_, same.cycleStamp, ⟨valid, fun event here => ?_⟩, ?_, ?_⟩
  · unfold Room
    omega
  · rw [same.cycleStamp]
    rcases mem_insert.mp here with rfl | here
    · rw [hend, UInt64.le_iff_toNat_le, hnat]
      exact Nat.le_add_right _ _
    · rw [hwhen event here]
      exact ready.pending event here
  · rw [same.timesliceEndEvent]
    exact mem_insert_self _ _
  · rw [same.timesliceEndEvent]
    exact hend

/-- In every run of a timeslice that leaves the 64-bit stamp room to advance, the stamp
never decreases, handlers run when they are due and in the order of their stamps, and the
function returns exactly one timeslice later with nothing left behind. -/
theorem dcClockRunTimeslice_orderly {code : Code Machine Event Cell} (polite : code.Polite)
    (kind : Dispatch) (fuel inner : Nat) (machine : Machine) {clock : DcClock Event Cell}
    {scheduled : Finset Event} (ready : Ready clock scheduled)
    (room : clock.cycleStamp.toNat + dcTimeslice.toNat + 540 * 2 ^ 32 ≤ 2 ^ 64) :
    let outcome := dcClockRunTimeslice code kind fuel inner machine clock
    (∀ mark ∈ outcome.trace, clock.cycleStamp ≤ mark.stamp) ∧
    outcome.trace.Pairwise (fun a b => a.stamp ≤ b.stamp) ∧
    (∀ event due stamp, Mark.handler event due stamp ∈ outcome.trace → stamp = due) ∧
    (outcome.trace.filterMap Mark.due?).Pairwise (· ≤ ·) ∧
    (∀ retVal machine' clock', outcome.returned = some (retVal, machine', clock') →
      retVal = false ∧ clock'.cycleStamp = clock.cycleStamp + dcTimeslice ∧
      ∃ scheduled', Ready clock' scheduled') := by
  have keeps : Keeps (clock.cycleStamp + dcTimeslice) clock.cycleStamp
      (dcClockRunTimeslice code kind fuel inner machine clock) := by
    simp only [dcClockRunTimeslice]
    split
    · exact ⟨Orderly.nil _, nofun⟩
    · rename_i clock₁ hsched
      obtain ⟨hroom, hstamp, running⟩ := ready.start room hsched
      rw [← hstamp]
      exact timesliceLoop_keeps polite (hstamp.symm ▸ hroom) kind inner fuel
        (hstamp.symm ▸ running)
  exact ⟨keeps.orderly.from_start, keeps.orderly.ordered, keeps.orderly.on_time,
    keeps.orderly.due_ordered, keeps.returned⟩

def idleCode (cycles : UInt32) : Code Unit (Fin 2) Unit where
  sh4CountInst := fun machine clock => some (cycles, machine, clock)
  sh4DoExecInst := fun machine clock => some ((), machine, clock)
  codeBlockIntpExec := fun machine clock => some (cycles, machine, clock)
  arm7Enabled := fun _ => true
  arm7Exec := fun machine clock => some (cycles, machine, clock)
  handler := fun _ machine clock => some ((), machine, clock)

theorem idleCode_polite (cycles : UInt32) : (idleCode cycles).Polite := by
  constructor
  all_goals
    intros
    rintro _ _ _ _ _ _ _ ⟨rfl, rfl, rfl⟩
    exact ⟨_, .refl⟩

def quietClock (stamp : DcCycleStamp) : DcClock (Fin 2) Unit :=
  ⟨⟨stamp, none, 0, none, fun _ => 0⟩, IntrusiveList.Links.empty, fun _ => 0, 0⟩

theorem quietClock_ready (stamp : DcCycleStamp) : Ready (quietClock stamp) ∅ where
  valid :=
    { separate := fun _ => nofun
      queue := ⟨[], ⟨IntrusiveList.spells_empty, List.Pairwise.nil⟩, rfl⟩
      target := fun _ => nofun }
  pending := nofun
  slice := nofun

theorem dcClockRunTimeslice_orderly_idle : ∃ clock',
    (dcClockRunTimeslice (idleCode 20000000) .runToNextSh4EventJit 3 3 () (quietClock 7)).returned =
      some (false, (), clock') ∧ clock'.cycleStamp = 7 + dcTimeslice := by
  have orderly := dcClockRunTimeslice_orderly (idleCode_polite 20000000) .runToNextSh4EventJit
    3 3 () (quietClock_ready 7) (by decide)
  refine ⟨_, rfl, ?_⟩
  exact (orderly.2.2.2.2 _ _ _ rfl).2.1

/-- At the top of the 64-bit range the end of the timeslice wraps around to a stamp in the
past, and the timeslice ends at once. -/
theorem dcClockRunTimeslice_wraps : (idleCode 1).Polite ∧ Ready (quietClock 0xffffffffffffffff) ∅ ∧
    ∃ clock', (dcClockRunTimeslice (idleCode 1) .runToNextSh4Event 3 3 ()
        (quietClock 0xffffffffffffffff)).returned = some (false, (), clock') ∧
      clock'.cycleStamp ≠ (quietClock 0xffffffffffffffff).cycleStamp + dcTimeslice :=
  ⟨idleCode_polite 1, quietClock_ready _, _, rfl, by decide⟩

end Timeslice

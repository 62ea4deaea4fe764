import WashingtonDC.EventSlot
import WashingtonDC.LazyCounter
import WashingtonDC.Lockstep
import Mathlib.Data.UInt

/-!
# The timers of the sound processor

The three timers of `aica.c` count samples, divided by a prescaler. A counter is only brought up to
date when a system register is read, a timer is written or the event of a timer fires, and always
together with the two others. The model follows each timer next to a reference counter that starts
with the last write.

They agree if no update drops a part of a period, no write finds an update outstanding, and the
counters that are read are below 16. The channels, which are processed at the same time, and the
interrupts of the SH4 are left out.
-/
namespace Aica

open EventSlot Function Nat Lockstep

/-- `TICKS_PER_SAMPLE`. -/
abbrev ticksPerSample : Nat := 122448

inductive TimerIdx
  | a | b | c
deriving DecidableEq

instance TimerIdx.decidableForall {P : TimerIdx → Prop} [∀ i, Decidable (P i)] : Decidable (∀ i, P i) :=
  decidable_of_iff (P .a ∧ P .b ∧ P .c)
    ⟨fun ⟨ha, hb, hc⟩ i => match i with | .a => ha | .b => hb | .c => hc, fun h => ⟨h _, h _, h _⟩⟩

structure Timer where
  lastSampleSync : Nat
  counter : Nat
  prescaleLog : Nat
  evt : Known

namespace Timer

variable (t : Timer)

def prescale : Nat := 2 ^ t.prescaleLog

/-- `aica_sync_timer`. -/
def sync (sample : Nat) : Timer :=
  let clockTickDelta := (sample - t.lastSampleSync) / t.prescale
  if clockTickDelta ≠ 0 then
    { t with counter := (t.counter + clockTickDelta) % 256, lastSampleSync := sample }
  else t

/-- `aica_sched_timer`. -/
def sched (stamp : Nat) : Timer :=
  { t with evt := t.evt.request (stamp + ticksPerSample * ((256 - t.counter) * t.prescale)) }

/-- `aica_unsched_timer`. -/
def unsched : Timer := { t with evt := .idle }

def lazy : LazyCounter := ⟨t.lastSampleSync, t.counter⟩

def ctrl : Nat := 256 * (t.prescaleLog % 8) + t.counter % 16

end Timer

structure Chip where
  stamp : Nat
  timers : TimerIdx → Timer
  intEnable : UInt32
  intPending : UInt32
  scilv0 : UInt32
  scilv1 : UInt32
  scilv2 : UInt32
  intreq : UInt32
  /-- The FIQ line of the ARM7. -/
  fiq : Bool

namespace Chip

variable (aica : Chip) (i : TimerIdx)

def sampleCount : Nat := aica.stamp / ticksPerSample

def setTimer (t : Timer) : Chip := { aica with timers := Function.update aica.timers i t }

/-- `aica_sync`, for the timers. -/
def sync : Chip := { aica with timers := fun j => (aica.timers j).sync aica.sampleCount }

def onTimerCtrlWrite (val : UInt32) : Chip :=
  let aica := aica.sync
  let t := { (aica.timers i).unsched with
    counter := val.toNat % 256, prescaleLog := val.toNat / 256 % 8 }
  aica.setTimer i (t.sched aica.stamp)

def intMask : TimerIdx → UInt32
  | .a => 0x40
  | .b => 0x80
  | .c => 0x100

def sciBit : TimerIdx → UInt32
  | .a => 6
  | .b | .c => 7

def readSci (bit : UInt32) : UInt32 :=
  (((aica.scilv2 >>> bit) &&& 1) <<< 2) ||| (((aica.scilv1 >>> bit) &&& 1) <<< 1) |||
    ((aica.scilv0 >>> bit) &&& 1)

/-- The interrupt is pending, and the ARM7 is told if it is enabled. -/
def raiseTimerInt : Chip :=
  let aica := { aica with intPending := aica.intPending ||| intMask i }
  if aica.intEnable &&& intMask i ≠ 0 then { aica with intreq := aica.readSci (sciBit i), fiq := true }
  else aica

/-- `aica_timer_handler`, after the clock has taken the event from its list. -/
def timerHandler : Except Fault Chip :=
  let aica := (aica.setTimer i (aica.timers i).unsched).sync
  if (aica.timers i).counter ≠ 0 then .error .raised
  else
    let aica := aica.raiseTimerInt i
    .ok (aica.setTimer i ((aica.timers i).sched aica.stamp))

def initTimer : Timer := (⟨0, 0, 0, .idle⟩ : Timer).sched 0

/-- `aica_init`. -/
def init : Chip := ⟨0, fun _ => initTimer, 0x40, 0, 0x18, 0x50, 0x08, 0, false⟩

end Chip

/-! ## Timers next to their references -/

/-- The reference since the last write, and the events since then. -/
structure Ref where
  reference : ReferenceCounter
  fired : Nat

def Ref.next (r : Ref) : Nat := r.reference.wrap 256 (r.fired + 1)

structure Tracked where
  aica : Chip
  refs : TimerIdx → Ref

inductive Action
  | advance (cycles : Nat)
  | fire (i : TimerIdx)
  | readTimer (i : TimerIdx)
  /-- A read of another system register. -/
  | readOther
  | writeTimer (i : TimerIdx) (val : UInt32)
  | writeScieb (val : UInt32)
  | writeScire (val : UInt32)
  | writeIntclear (val : UInt32)

namespace Tracked

variable (s : Tracked)

def ofAica (aica : Chip) : Tracked := { s with aica }

def isDue (i : TimerIdx) : Bool := (s.aica.timers i).evt.event.isDue s.aica.stamp

def free (stamp : Nat) : Bool :=
  [TimerIdx.a, .b, .c].all fun i => (s.aica.timers i).evt.event.all (stamp ≤ ·)

/-- The state after an action. Time passes up to the next event and not beyond it. -/
def act : Action → Option Tracked
  | .advance cycles =>
    if s.free (s.aica.stamp + cycles) then
      some (s.ofAica { s.aica with stamp := s.aica.stamp + cycles })
    else none
  | .fire i =>
    if s.isDue i then
      (s.aica.timerHandler i).toOption.map fun aica =>
        ⟨aica, Function.update s.refs i { s.refs i with fired := (s.refs i).fired + 1 }⟩
    else none
  | .readTimer _ | .readOther => some (s.ofAica s.aica.sync)
  | .writeTimer i val =>
    some ⟨s.aica.onTimerCtrlWrite i val, Function.update s.refs i
      ⟨⟨s.aica.sampleCount, val.toNat % 256, 2 ^ (val.toNat / 256 % 8)⟩, 0⟩⟩
  | .writeScieb val => some (s.ofAica { s.aica with intEnable := val })
  | .writeScire val => some (s.ofAica { s.aica with intPending := s.aica.intPending &&& ~~~val })
  | .writeIntclear val =>
    some (s.ofAica { s.aica with fiq := s.aica.fiq && !(val &&& 0xff = 1) })

structure Moved where
  action : Action
  before : Tracked
  after : Tracked

def step (a : Action) : Option (Moved × Tracked) := (s.act a).map fun s' => (⟨a, s, s'⟩, s')

def OnTime : Prop :=
  ∀ i, (s.aica.timers i).lazy.OnTime (s.aica.timers i).prescale s.aica.sampleCount

instance : Decidable s.OnTime := inferInstanceAs (Decidable (∀ _, _))

/-- After `aica_init`; the timers have been set to zero, with no prescaler. -/
def init : Tracked := ⟨.init, fun _ => ⟨⟨0, 0, 1⟩, 0⟩⟩

end Tracked

namespace Tracked.Moved

variable (m : Tracked.Moved)

/-- The register shows the counter of the reference, and all its bits. -/
def ReadsRight : Prop :=
  match m.action with
  | .readTimer i =>
    (m.after.aica.timers i).ctrl =
      256 * (m.after.aica.timers i).prescaleLog +
        (m.before.refs i).reference.count 256 m.before.aica.sampleCount
  | _ => True

/-- An event fires in the sample in which the reference wraps, and the handler accepts it. -/
def FiresRight : Prop :=
  (match m.action with
    | .fire i => m.before.aica.sampleCount = (m.before.refs i).next
    | _ => True) ∧
  ∀ i, m.after.isDue i = true → ∃ aica, m.after.aica.timerHandler i = .ok aica

/-- The next event of each timer is due in the sample in which the reference wraps next, so that no
event is missing. -/
def NextRight : Prop :=
  ∀ i, ∃ due, (m.after.aica.timers i).evt.event = some due ∧
    due / ticksPerSample = (m.after.refs i).next

def syncs : Bool :=
  match m.action with
  | .fire _ | .readTimer _ | .readOther | .writeTimer _ _ => true
  | _ => false

/-- A counter that is read fits into the register, and a timer that is written is up to date. -/
def registerFits : Bool :=
  match m.action with
  | .readTimer i => (m.before.refs i).reference.count 256 m.before.aica.sampleCount < 16
  | .writeTimer i _ =>
    (m.before.aica.sync.timers i).lastSampleSync = m.before.aica.sampleCount
  | _ => true

def Fits : Prop := (m.syncs = true → m.before.OnTime) ∧ m.registerFits = true

instance : Decidable m.Fits := inferInstanceAs (Decidable ((_ → _) ∧ _))

def shown : Option (Nat × Nat) :=
  match m.action with
  | .readTimer i => some ((m.after.aica.timers i).ctrl % 256,
      (m.before.refs i).reference.count 256 m.before.aica.sampleCount)
  | _ => none

end Tracked.Moved

/-! ## One timer -/

theorem sample_add (stamp k : Nat) :
    (stamp + ticksPerSample * k) / ticksPerSample = stamp / ticksPerSample + k :=
  add_mul_div_left _ _ (by decide)

namespace Timer

/-- The timer is in step with its reference, and its event is due when the reference wraps. -/
structure Follows (t : Timer) (r : Ref) (stamp : Nat) : Prop where
  period : r.reference.period = t.prescale
  log : t.prescaleLog < 8
  value : r.reference.value < 256
  inStep : t.lazy.InStep 256 r.reference
  past : t.lastSampleSync ≤ stamp / ticksPerSample
  due : ∃ due, t.evt.event = some due ∧ stamp ≤ due ∧ due / ticksPerSample = r.next

variable {t : Timer} {r : Ref} {stamp : Nat}

theorem prescale_pos (t : Timer) : 0 < t.prescale := Nat.two_pow_pos _

theorem sync_lazy (t : Timer) (sample : Nat) :
    (t.sync sample).lazy = t.lazy.sync 256 t.prescale sample := by
  by_cases hticks : (sample - t.lastSampleSync) / t.prescale ≠ 0
  · simp only [sync, if_pos hticks]
    exact (if_pos hticks).symm
  · simp only [sync, if_neg hticks]
    exact (if_neg hticks).symm

theorem sync_rest (t : Timer) (sample : Nat) :
    (t.sync sample).prescaleLog = t.prescaleLog ∧ (t.sync sample).evt = t.evt := by
  unfold sync
  dsimp only
  split <;> exact ⟨rfl, rfl⟩

section
variable (follows : t.Follows r stamp)
include follows

theorem Follows.sync (onTime : t.lazy.OnTime t.prescale (stamp / ticksPerSample)) :
    (t.sync (stamp / ticksPerSample)).Follows r stamp ∧
      (t.sync (stamp / ticksPerSample)).counter =
        r.reference.count 256 (stamp / ticksPerSample) := by
  obtain ⟨hlog, hevt⟩ := t.sync_rest (stamp / ticksPerSample)
  have hlazy := t.sync_lazy (stamp / ticksPerSample)
  have hpast : (t.sync (stamp / ticksPerSample)).lazy.last ≤ stamp / ticksPerSample := by
    rw [hlazy]
    exact LazyCounter.last_sync_le follows.past
  rw [← follows.period] at hlazy onTime
  obtain ⟨hinStep, hcount⟩ :=
    follows.inStep.sync (follows.period ▸ t.prescale_pos) follows.past onTime
  rw [← hlazy] at hinStep hcount
  refine ⟨⟨?_, ?_, follows.value, hinStep, hpast, ?_⟩, hcount⟩
  · rw [follows.period, prescale, prescale, hlog]
  · rw [hlog]
    exact follows.log
  · rw [hevt]
    exact follows.due

theorem Follows.advance {cycles : Nat} (free : t.evt.event.all (stamp + cycles ≤ ·) = true) :
    t.Follows r (stamp + cycles) := by
  obtain ⟨due, hevt, -, hnext⟩ := follows.due
  refine { follows with past := ?_, due := ⟨due, hevt, ?_, hnext⟩ }
  · exact follows.past.trans (Nat.div_le_div_right (Nat.le_add_right _ _))
  · simpa [hevt] using free

theorem Follows.sample_of_isDue (isDue : t.evt.event.isDue stamp = true) :
    stamp / ticksPerSample = r.next := by
  obtain ⟨due, hevt, hle, hnext⟩ := follows.due
  have hdue : due ≤ stamp := by simpa [Slot.isDue, hevt] using isDue
  rw [← hnext, le_antisymm hle hdue]

theorem Follows.onTime_next (next : stamp / ticksPerSample = r.next) :
    t.lazy.OnTime t.prescale (stamp / ticksPerSample) := by
  obtain ⟨n, hlast, -⟩ := follows.inStep
  right
  rw [next, hlast, Ref.next, ReferenceCounter.wrap, Nat.add_sub_add_left, ← Nat.sub_mul,
    follows.period]
  exact Nat.dvd_mul_left _ _

theorem Follows.counter_next (next : stamp / ticksPerSample = r.next) :
    (t.sync (stamp / ticksPerSample)).counter = 0 := by
  have hpos : 0 < r.reference.period := follows.period ▸ t.prescale_pos
  have hvalue := follows.value
  calc (t.sync (stamp / ticksPerSample)).counter
      = r.reference.count 256 (r.reference.wrap 256 (r.fired + 1) + 0) := by
        rw [(follows.sync (follows.onTime_next next)).2, next]
        rfl
    _ = (r.reference.value + (256 * (r.fired + 1) - r.reference.value)) % 256 :=
        ReferenceCounter.count_add_mul hpos hpos
    _ = 0 := by rw [add_sub_of_le (by omega), mul_mod_right]

end

theorem follows_write {v p : Nat} (synced : t.lastSampleSync = stamp / ticksPerSample)
    (hv : v < 256) (hp : p < 8) :
    ({ t.unsched with counter := v, prescaleLog := p } : Timer).sched stamp |>.Follows
      ⟨⟨stamp / ticksPerSample, v, 2 ^ p⟩, 0⟩ stamp where
  period := rfl
  log := hp
  value := hv
  inStep := by
    have hstart := LazyCounter.inStep_start ⟨stamp / ticksPerSample, v, 2 ^ p⟩ hv
    rw [← synced] at hstart ⊢
    exact hstart
  past := synced.le
  due := by
    refine ⟨stamp + ticksPerSample * ((256 - v) * 2 ^ p), rfl, Nat.le_add_right _ _, ?_⟩
    rw [sample_add, Ref.next, ReferenceCounter.wrap, Nat.mul_one]

theorem Follows.resched (follows : t.Follows r stamp) (next : stamp / ticksPerSample = r.next)
    (zero : t.counter = 0) :
    (t.unsched.sched stamp).Follows { r with fired := r.fired + 1 } stamp := by
  have hvalue := follows.value
  refine ⟨follows.period, follows.log, hvalue, follows.inStep, follows.past,
    stamp + ticksPerSample * ((256 - t.counter) * t.prescale), rfl, Nat.le_add_right _ _, ?_⟩
  rw [sample_add, next, zero, Nat.sub_zero, Ref.next, Ref.next,
    ReferenceCounter.wrap_succ (by omega : r.reference.value ≤ 256 * (r.fired + 1)),
    follows.period]

theorem sync_unsched (t : Timer) (sample : Nat) :
    t.unsched.sync sample = (t.sync sample).unsched := by
  unfold sync
  dsimp only [unsched, prescale]
  split <;> rfl

end Timer

/-! ## All timers -/

namespace Chip

variable {aica : Chip} {i : TimerIdx}

theorem raiseTimerInt_rest (aica : Chip) (i : TimerIdx) :
    (aica.raiseTimerInt i).timers = aica.timers ∧ (aica.raiseTimerInt i).stamp = aica.stamp := by
  unfold raiseTimerInt
  dsimp only
  split <;> exact ⟨rfl, rfl⟩

theorem timerHandler_ok (zero : ((aica.timers i).sync aica.sampleCount).counter = 0) :
    ∃ aica', aica.timerHandler i = .ok aica' ∧ aica'.stamp = aica.stamp ∧
      aica'.timers = Function.update aica.sync.timers i
        (((aica.timers i).sync aica.sampleCount).unsched.sched aica.stamp) := by
  set idle := (aica.setTimer i (aica.timers i).unsched).sync with hidle
  have hsync : idle.timers = Function.update aica.sync.timers i
      ((aica.timers i).sync aica.sampleCount).unsched := by
    funext j
    by_cases hij : j = i
    · subst hij
      simp [hidle, setTimer, sync, sampleCount, Timer.sync_unsched]
    · simp [hidle, setTimer, sync, sampleCount, hij]
  obtain ⟨htimers, hstamp⟩ := raiseTimerInt_rest idle i
  have hzero : (idle.timers i).counter = 0 := by
    rw [hsync, update_self]
    exact zero
  refine ⟨_, (if_neg (not_not.mpr hzero)), hstamp, ?_⟩
  rw [setTimer, htimers, hstamp, hsync, update_idem, update_self]
  rfl

end Chip

namespace Tracked

def InStep (s : Tracked) : Prop := ∀ i, (s.aica.timers i).Follows (s.refs i) s.aica.stamp

variable {s s' : Tracked} {a : Action}

theorem InStep.sync (inStep : s.InStep) (onTime : s.OnTime) : (s.ofAica s.aica.sync).InStep :=
  fun i => ((inStep i).sync (onTime i)).1

theorem InStep.counter_sync (inStep : s.InStep) (onTime : s.OnTime) (i : TimerIdx) :
    (s.aica.sync.timers i).counter = (s.refs i).reference.count 256 s.aica.sampleCount :=
  ((inStep i).sync (onTime i)).2

theorem free_apply {stamp : Nat} (h : s.free stamp = true) (i : TimerIdx) :
    (s.aica.timers i).evt.event.all (stamp ≤ ·) = true := by
  refine List.all_eq_true.mp h i ?_
  cases i <;> simp

section
variable (inStep : s.InStep)
include inStep

variable {i : TimerIdx}

theorem InStep.sample_of_isDue (isDue : s.isDue i = true) : s.aica.sampleCount = (s.refs i).next :=
  (inStep i).sample_of_isDue isDue

theorem InStep.timerHandler (isDue : s.isDue i = true) :
    ∃ aica', s.aica.timerHandler i = .ok aica' ∧ aica'.stamp = s.aica.stamp ∧
      aica'.timers = Function.update s.aica.sync.timers i
        (((s.aica.timers i).sync s.aica.sampleCount).unsched.sched s.aica.stamp) :=
  Chip.timerHandler_ok ((inStep i).counter_next (inStep.sample_of_isDue isDue))

theorem InStep.fire (onTime : s.OnTime) (fires : s.act (.fire i) = some s') : s'.InStep := by
  by_cases hdue : s.isDue i = true
  · obtain ⟨aica', hok, hstamp, htimers⟩ := inStep.timerHandler hdue
    have hnext := inStep.sample_of_isDue hdue
    have hsame : s' = ⟨aica', Function.update s.refs i
        { s.refs i with fired := (s.refs i).fired + 1 }⟩ := by
      rw [act, if_pos hdue, hok] at fires
      exact (Option.some.inj fires).symm
    subst hsame
    intro j
    by_cases hij : j = i
    · subst hij
      simp only [htimers, hstamp, update_self]
      exact (inStep.sync onTime j).resched hnext ((inStep j).counter_next hnext)
    · simp only [htimers, hstamp, update_of_ne hij]
      exact inStep.sync onTime j
  · rw [act, if_neg hdue] at fires
    cases fires

theorem InStep.write (onTime : s.OnTime) {val : UInt32}
    (synced : (s.aica.sync.timers i).lastSampleSync = s.aica.sampleCount)
    (writes : s.act (.writeTimer i val) = some s') : s'.InStep := by
  cases writes
  intro j
  by_cases hij : j = i
  · subst hij
    simp only [Chip.onTimerCtrlWrite, Chip.setTimer, update_self]
    exact Timer.follows_write synced (mod_lt _ (by decide)) (mod_lt _ (by decide))
  · simp only [Chip.onTimerCtrlWrite, Chip.setTimer, update_of_ne hij]
    exact inStep.sync onTime j

theorem InStep.act (act : s.act a = some s') (fits : Moved.Fits ⟨a, s, s'⟩) : s'.InStep := by
  cases a with
  | advance cycles =>
    rw [Tracked.act] at act
    split at act
    next hfree =>
      cases act
      exact fun i => (inStep i).advance (free_apply hfree i)
    next => cases act
  | fire i => exact inStep.fire (fits.1 rfl) act
  | readTimer _ | readOther =>
    cases act
    exact inStep.sync (fits.1 rfl)
  | writeTimer i val => exact inStep.write (fits.1 rfl) (of_decide_eq_true fits.2) act
  | writeScieb val | writeScire val | writeIntclear val =>
    cases act
    exact inStep

theorem InStep.readsRight (act : s.act a = some s') (fits : Moved.Fits ⟨a, s, s'⟩) :
    Moved.ReadsRight ⟨a, s, s'⟩ := by
  cases a with
  | readTimer i =>
    cases act
    have hcounter := inStep.counter_sync (fits.1 rfl) i
    have hlog := (inStep.sync (fits.1 rfl) i).log
    have hbits : (s.refs i).reference.count 256 s.aica.sampleCount < 16 :=
      of_decide_eq_true fits.2
    simp only [Moved.ReadsRight, Timer.ctrl, ofAica] at hlog ⊢
    rw [hcounter, mod_eq_of_lt hlog, mod_eq_of_lt hbits]
  | _ => trivial

theorem InStep.firesRight (act : s.act a = some s') (inStep' : s'.InStep) :
    Moved.FiresRight ⟨a, s, s'⟩ := by
  refine ⟨?_, fun i hdue => ?_⟩
  · cases a with
    | fire i =>
      rw [Tracked.act] at act
      split at act
      next hdue => exact inStep.sample_of_isDue hdue
      next => cases act
    | _ => trivial
  · obtain ⟨aica', hok, -⟩ := inStep'.timerHandler hdue
    exact ⟨aica', hok⟩

end

theorem InStep.nextRight (inStep' : s'.InStep) : Moved.NextRight ⟨a, s, s'⟩ := by
  intro i
  obtain ⟨due, hevt, -, hnext⟩ := (inStep' i).due
  exact ⟨due, hevt, hnext⟩

theorem inStep_init : init.InStep := by
  intro i
  exact Timer.follows_write (t := ⟨0, 0, 0, .idle⟩) rfl (by decide) (by decide)

end Tracked

/-- The registers show the references and the events fire when they wrap, in every run in which no
update drops a part of a period. -/
theorem Tracked.follows_references {as : List Action}
    (fits : ∀ m ∈ (run step init as).1, m.Fits) :
    ∀ m ∈ (run step init as).1, m.ReadsRight ∧ m.FiresRight ∧ m.NextRight := by
  refine run_observes_of_invariant (P := Moved.Fits) (I := InStep) ?_ fits inStep_init
  intro s a m s' hstep hfits inStep
  obtain ⟨t, hact, heq⟩ := Option.map_eq_some_iff.mp hstep
  cases heq
  have inStep' := inStep.act hact hfits
  exact ⟨⟨inStep.readsRight hact hfits, inStep.firesRight hact inStep', inStep'.nextRight⟩, inStep'⟩

/-- A timer that counts samples, read before its counter reaches 16, until its event fires. -/
theorem Tracked.follows_references_untilFire :
    let samples n := Action.advance (ticksPerSample * n)
    let as := [samples 2, .readTimer .a, samples 254, .fire .a, .fire .b, .fire .c, samples 1,
      .readTimer .b]
    (run step init as).1.length = 8 ∧
      ∀ m ∈ (run step init as).1, m.ReadsRight ∧ m.FiresRight ∧ m.NextRight :=
  ⟨by decide +kernel, follows_references (by decide +kernel)⟩

/-- Timer A with two samples per increment loses a sample to a read in the middle, so that its
counter is late and its event finds it at 255. With eight samples per increment, the samples before
a write are counted after it. A counter of 16 is read as 0. -/
theorem Tracked.loses_samples :
    let samples n := Action.advance (ticksPerSample * n)
    let shown as := (run step init as).1.filterMap Moved.shown
    let slow := [Action.writeTimer .b 0x700, .writeTimer .c 0x700, .writeTimer .a 0x100]
    shown (slow ++ [samples 4, .readTimer .a]) = [(2, 2)] ∧
      shown (slow ++ [samples 3, .readTimer .a, samples 1, .readTimer .a]) = [(1, 1), (1, 2)] ∧
      (run step init (slow ++ [samples 3, .readTimer .a, samples 509])).2.any
        (fun s => s.isDue .a && !(s.aica.timerHandler .a).isOk) = true ∧
      shown [.writeTimer .a 0x300, samples 4, .writeTimer .a 0, .readTimer .a] = [(4, 0)] ∧
      shown [samples 16, .readTimer .a] = [(0, 16)] := by
  decide +kernel

end Aica

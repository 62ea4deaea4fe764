import WashingtonDC.Sh4.Tmu
import WashingtonDC.WordMask

/-!
# The timer unit as a set of down-counters

The counter that software reads is compared with one that is decremented in every period of its
prescaler. They agree as long as the writes to TSTR do no harm. The source decides whether to
bring a channel up to date by bit 0 of TSTR alone, so that a write can lose the fraction of a
period, lose whole periods, or count time in which the channel was stopped.
-/
namespace Sh4.Tmu

open EventSlot Lockstep Nat Chan List Option

/-! ## The reference -/

/-- `progress` counts the cycles of the timer unit in the current period. -/
structure Counter where
  running : Bool
  select : UInt16
  reload : UInt32
  count : UInt32
  progress : Nat

namespace Counter

variable (k : Counter)

def cycle : Counter :=
  match k.running, clockDiv k.select with
  | true, some div =>
    if k.progress + 1 < div then { k with progress := k.progress + 1 }
    else { k with progress := 0, count := if k.count = 0 then k.reload else k.count - 1 }
  | _, _ => k

/-- A period begins when the counter is started; a running counter goes on. -/
def setRunning (running : Bool) : Counter :=
  { k with running := running, progress := if k.running then k.progress else 0 }

def setSelect (select : UInt16) : Counter :=
  { k with select := select, progress := if select = k.select then k.progress else 0 }

end Counter

structure Reference where
  stamp : Nat
  counter : Counter

def tstrBit (val : UInt32) (i : Fin 3) : Bool :=
  (val &&& 7) &&& ((1 : UInt32) <<< UInt32.ofNat i.val) != 0

/-- The counter of channel `i` and the clock, with the values read from TCNT. -/
def Reference.next (i : Fin 3) (r : Reference) : Action → Option UInt32 × Reference
  | .tick =>
    (none, ⟨r.stamp + 1, if tmuDiv ∣ r.stamp + 1 then r.counter.cycle else r.counter⟩)
  | .writeTstr val => (none, { r with counter := r.counter.setRunning (tstrBit val i) })
  | .writeTcr j val =>
    (none, if j = i then { r with counter := r.counter.setSelect (val.toUInt16 &&& tcrTpscMask) }
      else r)
  | .writeTcor j val => (none, if j = i then { r with counter.reload := val } else r)
  | .writeTcnt j val => (none, if j = i then { r with counter.count := val } else r)
  | .readTcnt j => (if j = i then some r.counter.count else none, r)
  | _ => (none, r)

def Reference.start : Reference := ⟨0, ⟨false, 0, 0xffffffff, 0xffffffff, 0⟩⟩

/-! ## Accesses that do no harm -/

/-- The cycles of the timer unit in the current period, with those since the last update. -/
def Chan.total (c : Chan) (now : Nat) : Nat := c.accum + (now - c.stampLastSync)

/-- A running channel after the cycles since the last update have been counted. -/
def Chan.upToDate (c : Chan) (now div : Nat) : Chan :=
  { c with
    stampLastSync := now
    tcnt := c.tcnt - UInt32.ofNat (c.total now / div)
    accum := c.total now % div }

namespace Happened

variable (h : Happened) (i : Fin 3)

def tcntRead : Option UInt32 :=
  match h.action with
  | .readTcnt j => if j = i then h.value else none
  | _ => none

/-- The cycles since the last update of a running channel fit into 32 bits. -/
def timely : Bool :=
  !h.before.chanEnabled i || decide ((h.before.chan i).total (h.before.now + 1) < 2 ^ 32)

/-- A write to TSTR loses no time of the channel and adds none. If bit 0 does not change, the
fraction of a period is lost; if it does, the channel is not brought up to date. -/
def harmless : Bool :=
  match h.action with
  | .writeTstr val =>
    let total := (h.before.chan i).total h.before.now
    let changes := h.before.chanEnabled firstChan != tstrBit val firstChan
    match h.before.chanEnabled i, tstrBit val i with
    | true, true => changes || (clockDiv (h.before.chan i).tcr).all fun div => total % div == 0
    | true, false => !changes || (clockDiv (h.before.chan i).tcr).all fun div => total < div
    | false, true => !changes || total == 0
    | false, false => true
  | _ => true

end Happened

/-! ## The relation to the reference -/

/-- A running channel and its counter. -/
structure Runs (now div : Nat) (c : Chan) (k : Counter) : Prop where
  fraction : c.accum < div
  notDue : c.total now < (c.tcnt.toNat + 1) * div
  event : c.event.event = some ((c.stampLastSync + ((c.tcnt.toNat + 1) * div - c.accum)) * tmuDiv)
  count : k.count = c.tcnt - UInt32.ofNat (c.total now / div)
  progress : k.progress = c.total now % div

/-- A channel and its counter. -/
structure Tracks (now : Nat) (enabled : Bool) (c : Chan) (k : Counter) : Prop where
  running : k.running = enabled
  select : k.select = c.tcr &&& tcrTpscMask
  reload : k.reload = c.tcor
  synced : c.stampLastSync ≤ now
  flag : c.event.Honest
  stopped : enabled = false → c.event.event = none ∧ k.count = c.tcnt
  runs : enabled = true → ∃ div, clockDiv c.tcr = some div ∧ Runs now div c k

/-- A channel that has been brought up to date, whatever its event is. -/
structure Synced (now : Nat) (enabled : Bool) (c : Chan) (k : Counter) : Prop where
  running : k.running = enabled
  select : k.select = c.tcr &&& tcrTpscMask
  reload : k.reload = c.tcor
  synced : c.stampLastSync = now
  count : k.count = c.tcnt
  fraction : enabled = true → ∀ div, clockDiv c.tcr = some div →
    c.accum < div ∧ k.progress = c.accum

variable {val : UInt32}

section
variable {now stamp div : Nat} {enabled : Bool} {c c' : Chan} {k : Counter}

variable {tcr : UInt16} {tmp tstr : UInt32} {next : Bool}

theorem clockDiv_pos (h : clockDiv tcr = some div) : 0 < div := by
  unfold clockDiv at h
  split at h <;> cases h <;> decide

theorem clockDiv_congr {tcr' : UInt16} (h : tcr' &&& tcrTpscMask = tcr &&& tcrTpscMask) :
    clockDiv tcr' = clockDiv tcr := by
  unfold clockDiv
  rw [h]

theorem or_unf_and (tcr : UInt16) {mask : UInt16} (disjoint : tcrUnfMask &&& mask = 0) :
    (tcr ||| tcrUnfMask) &&& mask = tcr &&& mask := by
  have hor : (tcr ||| tcrUnfMask) &&& mask = (tcr &&& mask) ||| (tcrUnfMask &&& mask) := by
    apply UInt16.toBitVec_inj.mp
    ext i hi
    simp only [UInt16.toBitVec_and, UInt16.toBitVec_or, BitVec.getElem_and, BitVec.getElem_or,
      Bool.and_or_distrib_right]
  rw [hor, disjoint]
  exact UInt16.or_zero

theorem tpsc_or_unf (tcr : UInt16) : (tcr ||| tcrUnfMask) &&& tcrTpscMask = tcr &&& tcrTpscMask :=
  or_unf_and tcr rfl

theorem tpsc_clearedFlags (old new : UInt16) :
    clearedFlags old new &&& tcrTpscMask = new &&& tcrTpscMask := by
  have hicpf : ∀ x : UInt16, x &&& ~~~tcrIcpfMask &&& tcrTpscMask = x &&& tcrTpscMask := by
    intro x
    rw [UInt16.and_assoc]
    rfl
  have hunf : ∀ x : UInt16, x &&& ~~~tcrUnfMask &&& tcrTpscMask = x &&& tcrTpscMask := by
    intro x
    rw [UInt16.and_assoc]
    rfl
  unfold clearedFlags
  dsimp only
  split_ifs <;> simp only [hicpf, hunf]

/-! ## Bringing a channel up to date -/

theorem sync_again (h : c.stampLastSync = now) : c.sync enabled now = .ok c := by
  subst h
  simp [sync]

theorem sync_stopped : c.sync false now = .ok { c with stampLastSync := now } := by
  simp only [sync, Bool.not_false, if_true, ite_self]

theorem toNat_sub_ofNat {n : Nat} {m : UInt32} (h : n ≤ m.toNat) :
    (m - UInt32.ofNat n).toNat = m.toNat - n := by
  have hofNat : (UInt32.ofNat n).toNat = n :=
    UInt32.toNat_ofNat_of_lt' (h.trans_lt m.toNat_lt)
  rw [UInt32.toNat_sub_of_le _ _ (UInt32.le_iff_toNat_le.mpr (by omega)), hofNat]

theorem div_le_of_lt_mul {m n : Nat} (h : m < (n + 1) * div) : m / div ≤ n :=
  Nat.lt_succ_iff.mp (Nat.div_lt_of_lt_mul (by rwa [mul_comm] at h))

theorem upToDate_tcnt (notDue : c.total now < (c.tcnt.toNat + 1) * div) :
    (c.upToDate now div).tcnt.toNat = c.tcnt.toNat - c.total now / div ∧
      (c.tcnt.toNat - c.total now / div + 1) * div =
        (c.tcnt.toNat + 1) * div - div * (c.total now / div) := by
  have hle := div_le_of_lt_mul notDue
  refine ⟨toNat_sub_ofNat hle, ?_⟩
  rw [mul_comm div, ← Nat.sub_mul]
  congr 1
  omega

theorem sync_elapsed (hdiv : clockDiv c.tcr = some div) (elapsed : now - c.stampLastSync ≠ 0) :
    c.sync true now =
      .ok (Chan.count { c with stampLastSync := now } (c.total now % 2 ^ 32) div) := by
  simp only [sync, elapsed, if_false, Bool.not_true, Bool.false_eq_true, Chan.clockDiv, hdiv,
    Except.map]
  rfl

theorem sync_running (hdiv : clockDiv c.tcr = some div) (fraction : c.accum < div)
    (notDue : c.total now < (c.tcnt.toNat + 1) * div) (fits : c.total now < 2 ^ 32) :
    c.sync true now = .ok (c.upToDate now div) := by
  have hsmall : ∀ {n}, n < div → n / div = 0 ∧ n % div = n := fun hn =>
    ⟨div_eq_of_lt hn, mod_eq_of_lt hn⟩
  by_cases helapsed : now - c.stampLastSync = 0
  · have htotal : c.total now = c.accum := by simp [Chan.total, helapsed]
    simp [sync, upToDate, helapsed, htotal, hsmall fraction]
  · have hle := div_le_of_lt_mul notDue
    rw [sync_elapsed hdiv helapsed, mod_eq_of_lt fits]
    unfold Chan.count upToDate
    split
    · rw [if_neg (by simpa using hle)]
    · rename_i hlt
      simp [hsmall (Nat.lt_of_not_le hlt)]

theorem sync_underflow (hdiv : clockDiv c.tcr = some div) (fraction : c.accum < div)
    (due : c.total now = (c.tcnt.toNat + 1) * div) (fits : c.total now < 2 ^ 32) :
    c.sync true now = .ok { c with
      stampLastSync := now, unf := true, tcnt := c.tcor, tcr := c.tcr ||| tcrUnfMask
      accum := 0 } := by
  have hpos := clockDiv_pos hdiv
  have hle : div ≤ c.total now := by
    rw [due]
    exact Nat.le_mul_of_pos_left _ (by omega)
  have helapsed : now - c.stampLastSync ≠ 0 := by
    intro hzero
    rw [Chan.total, hzero] at hle
    omega
  rw [sync_elapsed hdiv helapsed, mod_eq_of_lt fits]
  unfold Chan.count
  rw [if_pos hle, due, Nat.mul_div_cancel _ hpos, if_pos (lt_succ_self _), mul_mod_left]

theorem total_of_synced (h : c.stampLastSync = now) : c.total now = c.accum := by
  simp [Chan.total, h]

theorem Runs.sync (runs : Runs now div c k) (synced : c.stampLastSync ≤ now) :
    Runs now div (c.upToDate now div) k := by
  obtain ⟨fraction, notDue, event, count, progress⟩ := runs
  have hpos : 0 < div := zero_lt_of_lt fraction
  obtain ⟨htcnt, hexpand⟩ := upToDate_tcnt notDue
  have hmod : c.total now % div < div := mod_lt _ hpos
  have htotal : (c.upToDate now div).total now = c.total now % div := total_of_synced rfl
  refine ⟨hmod, ?_, ?_, ?_, ?_⟩
  · rw [htotal]
    exact lt_of_lt_of_le hmod (Nat.le_mul_of_pos_left _ (succ_pos _))
  · -- Both times are the current one plus the cycles that are left.
    have hsplit := div_add_mod (c.total now) div
    have hdue : now + ((c.tcnt.toNat - c.total now / div + 1) * div - c.total now % div) =
        c.stampLastSync + ((c.tcnt.toNat + 1) * div - c.accum) := by
      rw [hexpand]
      unfold Chan.total at *
      omega
    rw [htcnt]
    exact event.trans (congrArg (fun due => some (due * tmuDiv)) hdue.symm)
  · rw [htotal, div_eq_of_lt hmod]
    simpa [upToDate] using count
  · rw [htotal, mod_eq_of_lt hmod]
    exact progress

theorem Tracks.sync (tracks : Tracks now enabled c k)
    (fits : enabled = true → c.total now < 2 ^ 32) (h : c.sync enabled now = .ok c') :
    Synced now enabled c' k ∧ Tracks now enabled c' k := by
  cases enabled with
  | false =>
    rw [sync_stopped] at h
    cases h
    obtain ⟨hevent, hcount⟩ := tracks.stopped rfl
    exact ⟨⟨tracks.running, tracks.select, tracks.reload, rfl, hcount, nofun⟩,
      tracks.running, tracks.select, tracks.reload, le_refl _, tracks.flag,
      fun _ => ⟨hevent, hcount⟩, nofun⟩
  | true =>
    obtain ⟨div, hdiv, runs⟩ := tracks.runs rfl
    rw [sync_running hdiv runs.fraction runs.notDue (fits rfl)] at h
    cases h
    have hruns := runs.sync tracks.synced
    refine ⟨⟨tracks.running, tracks.select, tracks.reload, rfl, runs.count, ?_⟩, tracks.running,
      tracks.select, tracks.reload, le_refl _, tracks.flag, nofun, fun _ => ⟨div, hdiv, hruns⟩⟩
    intro _ div' hdiv'
    obtain rfl : div = div' := Option.some.inj (hdiv.symm.trans hdiv')
    exact ⟨hruns.fraction, runs.progress⟩

/-! ## Scheduling the next underflow -/

theorem eventUnschedMaybe_ok (flag : c.event.Honest) :
    c.eventUnschedMaybe = .ok { c with event := .idle } := by
  unfold Chan.eventUnschedMaybe
  rw [flag.unschedMaybe]
  rfl

theorem eventSchedNext_ok (noEvent : c.event.event = none)
    (h : c.eventSchedNext enabled stamp = .ok c') :
    enabled = false ∧ c' = { c with event := c.event.clear } ∨
      enabled = true ∧ ∃ div, clockDiv c.tcr = some div ∧
        c' = { c with event := ⟨true, some ((c.nextChanEvent div + stamp / tmuDiv) * tmuDiv)⟩ } := by
  unfold Chan.eventSchedNext at h
  cases enabled with
  | false =>
    cases h
    exact .inl ⟨rfl, rfl⟩
  | true =>
    obtain ⟨div, hdiv, h⟩ := bind_eq_ok h
    obtain ⟨event, hevent, h⟩ := bind_eq_ok h
    rw [Flagged.sched_of_absent noEvent] at hevent
    cases hevent
    cases h
    refine .inr ⟨rfl, div, ?_, rfl⟩
    unfold Chan.clockDiv at hdiv
    split at hdiv
    · rename_i hsome
      cases hdiv
      exact hsome
    · cases hdiv

theorem Synced.eventSchedNext (sy : Synced (stamp / tmuDiv) enabled c k) (noEvent : c.event.event = none)
    (h : c.eventSchedNext enabled stamp = .ok c') : Tracks (stamp / tmuDiv) enabled c' k := by
  rcases eventSchedNext_ok noEvent h with ⟨rfl, rfl⟩ | ⟨rfl, div, hdiv, rfl⟩
  · exact ⟨sy.running, sy.select, sy.reload, sy.synced.le, Flagged.clear_honest noEvent,
      fun _ => ⟨noEvent, sy.count⟩, nofun⟩
  · refine ⟨sy.running, sy.select, sy.reload, sy.synced.le, rfl, nofun, fun _ => ⟨div, hdiv, ?_⟩⟩
    obtain ⟨hfraction, hprogress⟩ := sy.fraction rfl div hdiv
    have htotal : Chan.total { c with
        event := ⟨true, some ((c.nextChanEvent div + stamp / tmuDiv) * tmuDiv)⟩ }
        (stamp / tmuDiv) = c.accum := total_of_synced sy.synced
    refine ⟨hfraction, ?_, ?_, ?_, ?_⟩
    · rw [htotal]
      exact lt_of_lt_of_le hfraction (Nat.le_mul_of_pos_left _ (succ_pos _))
    · simp only [nextChanEvent, sy.synced, add_comm]
    · rw [htotal, div_eq_of_lt hfraction]
      simpa using sy.count
    · rw [htotal, mod_eq_of_lt hfraction]
      exact hprogress

theorem Synced.eventResched (sy : Synced (stamp / tmuDiv) enabled c k)
    (flag : c.event.Honest) (h : c.eventResched enabled stamp = .ok c') :
    Tracks (stamp / tmuDiv) enabled c' k := by
  unfold Chan.eventResched at h
  rw [eventUnschedMaybe_ok flag] at h
  refine Synced.eventSchedNext (c := { c with event := .idle }) ?_ rfl h
  exact ⟨sy.running, sy.select, sy.reload, sy.synced, sy.count, sy.fraction⟩

/-! ## The clock -/

theorem succ_div_mod (h : n % div + 1 < div) :
    (n + 1) / div = n / div ∧ (n + 1) % div = n % div + 1 := by
  refine (Nat.div_mod_unique (by omega)).mpr ⟨?_, h⟩
  have := mod_add_div n div
  omega

theorem succ_div_mod_wrap (hpos : 0 < div) (h : ¬n % div + 1 < div) :
    (n + 1) / div = n / div + 1 ∧ (n + 1) % div = 0 := by
  refine (Nat.div_mod_unique hpos).mpr ⟨?_, hpos⟩
  have hlt := mod_lt n hpos
  have := mod_add_div n div
  rw [mul_add, mul_one]
  omega

theorem Chan.total_succ (synced : c.stampLastSync ≤ now) : c.total (now + 1) = c.total now + 1 := by
  unfold Chan.total
  omega

theorem Runs.cycle (runs : Runs now div c k) (running : k.running = true)
    (hdiv : clockDiv k.select = some div) (synced : c.stampLastSync ≤ now)
    (notDue : c.total (now + 1) < (c.tcnt.toNat + 1) * div) : Runs (now + 1) div c k.cycle := by
  obtain ⟨fraction, -, event, count, progress⟩ := runs
  have hpos : 0 < div := zero_lt_of_lt fraction
  rw [c.total_succ synced] at notDue
  refine ⟨fraction, by rwa [c.total_succ synced], event, ?_, ?_⟩ <;>
    rw [c.total_succ synced] <;> simp only [Counter.cycle, running, hdiv, progress] <;> split
  · rename_i hwithin
    rw [(succ_div_mod hwithin).1]
    exact count
  · rename_i hwrap
    have hle := div_le_of_lt_mul notDue
    rw [(succ_div_mod_wrap hpos hwrap).1] at hle ⊢
    have hne : k.count ≠ 0 := by
      intro hzero
      have := congrArg UInt32.toNat (count.symm.trans hzero)
      rw [toNat_sub_ofNat (by omega), UInt32.toNat_zero] at this
      omega
    rw [if_neg hne, count, UInt32.ofNat_add]
    exact sub_sub _ _ _
  · rename_i hwithin
    exact (succ_div_mod hwithin).2.symm
  · rename_i hwrap
    exact (succ_div_mod_wrap hpos hwrap).2.symm

theorem Runs.cycle_underflow (runs : Runs now div c k) (running : k.running = true)
    (hdiv : clockDiv k.select = some div) (synced : c.stampLastSync ≤ now)
    (due : c.total (now + 1) = (c.tcnt.toNat + 1) * div) :
    k.cycle = { k with progress := 0, count := k.reload } := by
  obtain ⟨fraction, -, event, count, progress⟩ := runs
  have hpos : 0 < div := zero_lt_of_lt fraction
  rw [c.total_succ synced] at due
  have hdivmod : c.total now / div = c.tcnt.toNat ∧ c.total now % div = div - 1 := by
    refine (Nat.div_mod_unique hpos).mpr ⟨?_, by omega⟩
    rw [add_mul, one_mul, mul_comm] at due
    omega
  have hzero : k.count = 0 := by
    rw [count, hdivmod.1, UInt32.ofNat_toNat, UInt32.sub_self]
  simp only [Counter.cycle, running, hdiv, progress, hdivmod.2, hzero, if_true]
  rw [if_neg (by omega)]

theorem Tracks.clockDiv_select (tracks : Tracks now enabled c k) :
    clockDiv k.select = clockDiv c.tcr := by
  rw [tracks.select]
  exact clockDiv_congr (by rw [UInt16.and_assoc, UInt16.and_self])

theorem Tracks.flags (tracks : Tracks now enabled c k) (unf : Bool) (n : Nat)
    (same : tcr &&& tcrTpscMask = c.tcr &&& tcrTpscMask) :
    Tracks now enabled { c with unf := unf, tcr := tcr, interrupts := n } k := by
  refine ⟨tracks.running, tracks.select.trans same.symm, tracks.reload, tracks.synced, tracks.flag,
    tracks.stopped, fun h => ?_⟩
  obtain ⟨div, hdiv, runs⟩ := tracks.runs h
  exact ⟨div, (clockDiv_congr same).trans hdiv, runs.fraction, runs.notDue, runs.event, runs.count,
    runs.progress⟩

theorem Runs.eventHandler (runs : Runs now div c k) (tracks : Tracks now true c k)
    (hdiv : clockDiv c.tcr = some div) (hnow : (stamp + 1) / tmuDiv = now + 1)
    (due : c.total (now + 1) = (c.tcnt.toNat + 1) * div) (fits : c.total (now + 1) < 2 ^ 32)
    (h : { c with event := c.event.pop }.eventHandler true (stamp + 1) = .ok c') :
    Tracks (now + 1) true c' k.cycle := by
  have hselect := tracks.clockDiv_select.trans hdiv
  obtain ⟨c1, hsync, h⟩ := bind_eq_ok h
  rw [hnow, sync_underflow (c := { c with event := c.event.pop }) hdiv runs.fraction due fits] at hsync
  cases hsync
  obtain ⟨c2, hsched, h⟩ := bind_eq_ok h
  cases h
  rw [runs.cycle_underflow tracks.running hselect tracks.synced due]
  have hsynced : Synced ((stamp + 1) / tmuDiv) true
      { c with
        event := c.event.pop, stampLastSync := now + 1, unf := true, tcnt := c.tcor
        tcr := c.tcr ||| tcrUnfMask, accum := 0 }
      { k with progress := 0, count := k.reload } := by
    rw [hnow]
    refine ⟨tracks.running, tracks.select.trans (tpsc_or_unf c.tcr).symm, tracks.reload, rfl,
      tracks.reload, ?_⟩
    exact fun _ div' hdiv' => ⟨clockDiv_pos hdiv', rfl⟩
  have htracks := hsynced.eventSchedNext rfl hsched
  rw [hnow] at htracks
  split
  · unfold raiseUnf
    dsimp only
    split
    · exact htracks.flags false (c2.interrupts + 1) (tpsc_or_unf c2.tcr)
    · exact htracks.flags false c2.interrupts (tpsc_or_unf c2.tcr)
  · exact htracks

theorem tstr_unchanged_iff (tstr tmp : UInt32) :
    (if tstr &&& tstrChanMask = 0 then 1 else 0) ^^^ (tmp &&& tstrChanMask) ≠ 0 ↔
      (tstr &&& tstrChanMask != 0) = (tmp &&& tstrChanMask != 0) := by
  have hbit : ∀ x : UInt32, x &&& tstrChanMask = 0 ∨ x &&& tstrChanMask = 1 :=
    fun x => WordMask.and_bit (i := 0) x rfl
  rcases hbit tstr with h | h <;> rcases hbit tmp with h' | h' <;> rw [h, h'] <;> decide

theorem tstrBefore_changed (changed : (tstr &&& tstrChanMask != 0) ≠ (tmp &&& tstrChanMask != 0))
    (h : c.tstrBefore enabled stamp tstr tmp = .ok c') : c' = c := by
  unfold tstrBefore at h
  rw [if_neg (mt (tstr_unchanged_iff tstr tmp).mp changed)] at h
  cases h
  rfl

section
variable (tracks : Tracks (stamp / tmuDiv) enabled c k)
include tracks

theorem Tracks.tick (fits : enabled = true → c.total (stamp / tmuDiv + 1) < 2 ^ 32)
    (h : c.tick enabled (stamp + 1) = .ok c') :
    Tracks ((stamp + 1) / tmuDiv) enabled c' (if tmuDiv ∣ stamp + 1 then k.cycle else k) := by
  cases enabled with
  | false =>
    obtain ⟨hevent, hcount⟩ := tracks.stopped rfl
    have hsame : k.cycle = k := by simp only [Counter.cycle, tracks.running]
    simp only [Chan.tick, hevent, Slot.isDue, any_none, Bool.false_eq_true, if_false] at h
    cases h
    rw [hsame, ite_self]
    exact ⟨tracks.running, tracks.select, tracks.reload,
      tracks.synced.trans (Nat.div_le_div_right (le_succ _)), tracks.flag, tracks.stopped, nofun⟩
  | true =>
    obtain ⟨div, hdiv, runs⟩ := tracks.runs rfl
    have hsynced := tracks.synced
    -- The event is due when the cycles that are left have passed.
    have hdue : c.event.event.isDue (stamp + 1) = true ↔
        (c.tcnt.toNat + 1) * div ≤ c.total ((stamp + 1) / tmuDiv) := by
      have hle := Nat.div_le_div_right (c := tmuDiv) (le_succ stamp)
      have hfraction := runs.notDue
      simp only [Slot.isDue, runs.event, any_some, decide_eq_true_eq]
      rw [← Nat.le_div_iff_mul_le (by decide)]
      unfold Chan.total at *
      omega
    unfold Chan.tick at h
    by_cases hdvd : tmuDiv ∣ stamp + 1
    · have hnow : (stamp + 1) / tmuDiv = stamp / tmuDiv + 1 := succ_div_of_dvd hdvd
      rw [if_pos hdvd]
      rw [hnow] at hdue ⊢
      have hsucc := c.total_succ hsynced
      have hnotDue := runs.notDue
      split at h
      · rename_i hfires
        refine runs.eventHandler tracks hdiv hnow ?_ (fits rfl) h
        have := hdue.mp hfires
        omega
      · rename_i hwaits
        cases h
        have hbefore : c.total (stamp / tmuDiv + 1) < (c.tcnt.toNat + 1) * div :=
          Nat.lt_of_not_le fun hle => hwaits (hdue.mpr hle)
        have hselect := tracks.clockDiv_select.trans hdiv
        have hruns := runs.cycle tracks.running hselect hsynced hbefore
        have hkeeps : k.cycle.running = k.running ∧ k.cycle.select = k.select ∧
            k.cycle.reload = k.reload := by
          simp only [Counter.cycle, tracks.running, hselect]
          split <;> exact ⟨rfl, rfl, rfl⟩
        exact ⟨hkeeps.1.trans tracks.running, hkeeps.2.1.trans tracks.select,
          hkeeps.2.2.trans tracks.reload, hsynced.trans (le_succ _), tracks.flag, nofun,
          fun _ => ⟨div, hdiv, hruns⟩⟩
    · have hnow : (stamp + 1) / tmuDiv = stamp / tmuDiv := succ_div_of_not_dvd hdvd
      rw [if_neg hdvd]
      rw [hnow] at hdue ⊢
      split at h
      · rename_i hfires
        exact absurd (hdue.mp hfires) (not_le.mpr runs.notDue)
      · cases h
        exact tracks

/-! ## Writes to the registers of a channel -/

section
variable (fits : enabled = true → c.total (stamp / tmuDiv) < 2 ^ 32)
include fits

theorem Tracks.tcntWriteHandler (h : c.tcntWriteHandler enabled stamp val = .ok c') :
    Tracks (stamp / tmuDiv) enabled c' { k with count := val } := by
  obtain ⟨c1, hsync, h⟩ := bind_eq_ok h
  obtain ⟨synced, tracked⟩ := tracks.sync fits hsync
  obtain ⟨c2, hagain, h⟩ := bind_eq_ok h
  rw [sync_again (c := { c1 with tcnt := val }) synced.synced] at hagain
  cases hagain
  refine Synced.eventResched (c := { c1 with tcnt := val }) ?_ tracked.flag h
  exact ⟨synced.running, synced.select, synced.reload, synced.synced, rfl, synced.fraction⟩

theorem Tracks.tcrWriteHandler (h : c.tcrWriteHandler enabled stamp val = .ok c') :
    Tracks (stamp / tmuDiv) enabled c' (k.setSelect (val.toUInt16 &&& tcrTpscMask)) := by
  obtain ⟨c1, hsync, h⟩ := bind_eq_ok h
  obtain ⟨synced, tracked⟩ := tracks.sync fits hsync
  obtain ⟨c2, hagain, h⟩ := bind_eq_ok h
  rw [sync_again (c := c1.setTcr c.tcr (clearedFlags c.tcr val.toUInt16)) synced.synced]
    at hagain
  cases hagain
  have hnew := tpsc_clearedFlags c.tcr val.toUInt16
  refine Synced.eventResched (c := c1.setTcr c.tcr (clearedFlags c.tcr val.toUInt16)) ?_
    tracked.flag h
  refine ⟨synced.running, hnew.symm, synced.reload, synced.synced, synced.count, ?_⟩
  intro hon div hdiv
  have hdiv : clockDiv (clearedFlags c.tcr val.toUInt16) = some div := hdiv
  simp only [setTcr, Counter.setSelect, hnew]
  by_cases hsame : val.toUInt16 &&& tcrTpscMask = c.tcr &&& tcrTpscMask
  · have hold : clockDiv c1.tcr = some div := by
      rw [← hdiv]
      exact clockDiv_congr ((synced.select.symm.trans tracks.select).trans (hnew.trans hsame).symm)
    rw [if_neg (by simp [hsame]), if_pos (hsame.trans tracks.select.symm)]
    exact synced.fraction hon div hold
  · rw [if_pos (Ne.symm hsame), if_neg (by rwa [tracks.select])]
    exact ⟨clockDiv_pos hdiv, rfl⟩

/-! ## Writes to TSTR -/

theorem Tracks.tstrBefore_unchanged
    (unchanged : (tstr &&& tstrChanMask != 0) = (tmp &&& tstrChanMask != 0))
    (h : c.tstrBefore enabled stamp tstr tmp = .ok c') :
    c'.tcr &&& tcrTpscMask = c.tcr &&& tcrTpscMask ∧ k.reload = c'.tcor ∧
      c'.stampLastSync = stamp / tmuDiv ∧ k.count = c'.tcnt ∧ c'.accum = 0 ∧
      c'.event.Honest := by
  unfold tstrBefore at h
  rw [if_pos ((tstr_unchanged_iff tstr tmp).mpr unchanged)] at h
  obtain ⟨c1, hsync, h⟩ := bind_eq_ok h
  obtain ⟨synced, tracked⟩ := tracks.sync fits hsync
  have hselect := synced.select.symm.trans tracks.select
  -- What happens to the event afterwards keeps the flag right.
  dsimp only at h
  split at h
  · split at h
    · rename_i hidle
      have hevent : c1.event.event = none := by
        have := tracked.flag
        simp only [Bool.not_eq_true'] at hidle
        rw [Flagged.Honest, hidle] at this
        simpa using this.symm
      rcases eventSchedNext_ok (c := { c1 with accum := 0 }) hevent h with
        ⟨-, rfl⟩ | ⟨-, div, -, rfl⟩
      · exact ⟨hselect, synced.reload, synced.synced, synced.count, rfl,
          Flagged.clear_honest hevent⟩
      · exact ⟨hselect, synced.reload, synced.synced, synced.count, rfl, rfl⟩
    · cases h
      exact ⟨hselect, synced.reload, synced.synced, synced.count, rfl, tracked.flag⟩
  · rw [eventUnschedMaybe_ok (c := { c1 with accum := 0 }) tracked.flag] at h
    cases h
    exact ⟨hselect, synced.reload, synced.synced, synced.count, rfl, rfl⟩

theorem Tracks.tstr_unchanged {c1 : Chan}
    (unchanged : (tstr &&& tstrChanMask != 0) = (tmp &&& tstrChanMask != 0))
    (harmless : enabled = true → next = true → ∀ div, clockDiv c.tcr = some div → c.total (stamp / tmuDiv) % div = 0)
    (before : c.tstrBefore enabled stamp tstr tmp = .ok c1)
    (after : c1.tstrAfter next stamp = .ok c') :
    Tracks (stamp / tmuDiv) next c' (k.setRunning next) := by
  obtain ⟨hselect, hreload, hsynced, hcount, haccum, hflag⟩ :=
    tracks.tstrBefore_unchanged fits unchanged before
  obtain ⟨c2, hagain, h⟩ := bind_eq_ok after
  rw [sync_again hsynced] at hagain
  cases hagain
  refine Synced.eventResched ?_ hflag h
  refine ⟨rfl, tracks.select.trans hselect.symm, hreload, hsynced, hcount, ?_⟩
  intro hnext div hdiv
  rw [haccum]
  refine ⟨clockDiv_pos hdiv, ?_⟩
  cases enabled with
  | false => simp [Counter.setRunning, tracks.running]
  | true =>
    obtain ⟨div', hdiv', runs⟩ := tracks.runs rfl
    simp only [Counter.setRunning, tracks.running, if_true]
    rw [runs.progress]
    exact harmless rfl hnext div' hdiv'

theorem Tracks.tstr_changed
    (stopping : enabled = true → next = false → ∀ div, clockDiv c.tcr = some div → c.total (stamp / tmuDiv) < div)
    (starting : enabled = false → next = true → c.total (stamp / tmuDiv) = 0)
    (after : c.tstrAfter next stamp = .ok c') :
    Tracks (stamp / tmuDiv) next c' (k.setRunning next) := by
  obtain ⟨c1, hsync, h⟩ := bind_eq_ok after
  cases enabled with
  | true =>
    obtain ⟨div, hdiv, runs⟩ := tracks.runs rfl
    cases next with
    | true =>
      have hsame : k.setRunning true = k := by
        obtain ⟨running, select, reload, count, progress⟩ := k
        cases tracks.running
        rfl
      obtain ⟨synced, tracked⟩ := tracks.sync fits hsync
      rw [hsame]
      exact synced.eventResched tracked.flag h
    | false =>
      rw [sync_stopped] at hsync
      cases hsync
      refine Synced.eventResched (c := { c with stampLastSync := stamp / tmuDiv }) ?_ tracks.flag h
      refine ⟨rfl, tracks.select, tracks.reload, rfl, ?_, nofun⟩
      have hcount := runs.count
      rw [div_eq_of_lt (stopping rfl rfl div hdiv)] at hcount
      simpa [Counter.setRunning] using hcount
  | false =>
    obtain ⟨-, hcount⟩ := tracks.stopped rfl
    cases next with
    | true =>
      have hzero := starting rfl rfl
      have hle := tracks.synced
      unfold Chan.total at hzero
      have hsynced : c.stampLastSync = stamp / tmuDiv := by omega
      rw [sync_again hsynced] at hsync
      cases hsync
      refine Synced.eventResched ?_ tracks.flag h
      refine ⟨rfl, tracks.select, tracks.reload, hsynced, hcount, ?_⟩
      intro _ div hdiv
      rw [show c.accum = 0 by omega]
      exact ⟨clockDiv_pos hdiv, by simp [Counter.setRunning, tracks.running]⟩
    | false =>
      rw [sync_stopped] at hsync
      cases hsync
      refine Synced.eventResched (c := { c with stampLastSync := stamp / tmuDiv }) ?_ tracks.flag h
      exact ⟨rfl, tracks.select, tracks.reload, rfl, hcount, nofun⟩

end

end

end

/-! ## The timer unit -/

section
variable {t t' : Tmu} {r : Reference} {i : Fin 3}

theorem each_ok {f : Fin 3 → Chan → Except Fault Chan} (h : t.each f = .ok t') :
    t'.stamp = t.stamp ∧ t'.tstr = t.tstr ∧ ∀ i, f i (t.chan i) = .ok (t'.chan i) := by
  obtain ⟨c0, h0, h⟩ := bind_eq_ok h
  obtain ⟨c1, h1, h⟩ := bind_eq_ok h
  obtain ⟨c2, h2, h⟩ := bind_eq_ok h
  cases h
  refine ⟨rfl, rfl, ?_⟩
  rintro ⟨_ | _ | _ | n, hn⟩
  · exact h0
  · exact h1
  · exact h2
  · omega

/-- Channel `i` follows its reference. -/
structure Follows (i : Fin 3) (t : Tmu) (r : Reference) : Prop where
  stamp : r.stamp = t.stamp
  tracks : Tracks t.now (t.chanEnabled i) (t.chan i) r.counter

theorem Follows.setChan {j : Fin 3} {c : Chan} {k : Counter} (follows : Follows i t r)
    (own : j = i → Tracks t.now (t.chanEnabled i) c k) :
    Follows i (t.setChan j c) (if j = i then { r with counter := k } else r) := by
  obtain ⟨hstamp, htstr⟩ := t.setChan_frame j c
  have hon : (t.setChan j c).chanEnabled i = t.chanEnabled i := by
    unfold chanEnabled
    rw [htstr]
  have hnow : (t.setChan j c).now = t.now := by
    unfold now
    rw [hstamp]
  refine ⟨?_, ?_⟩
  · split <;> exact follows.stamp.trans hstamp.symm
  · rw [hon, hnow, setChan_chan]
    by_cases hj : j = i
    · rw [if_pos hj.symm, if_pos hj]
      exact own hj
    · rw [if_neg (Ne.symm hj), if_neg hj]
      exact follows.tracks

theorem timely_now {h : Happened} (follows : Follows i h.before r) (timely : h.timely i = true) :
    h.before.chanEnabled i = true → (h.before.chan i).total h.before.now < 2 ^ 32 := by
  intro hon
  have hfits : (h.before.chan i).total (h.before.now + 1) < 2 ^ 32 := by
    simpa [Happened.timely, hon] using timely
  rw [total_succ follows.tracks.synced] at hfits
  omega

section
variable (follows : Follows i t r)
include follows

section
variable (fits : t.chanEnabled i = true → (t.chan i).total t.now < 2 ^ 32)
include fits

theorem Follows.syncChan {j : Fin 3} (h : t.syncChan j = .ok t') :
    Follows i t' r ∧ (j = i → (t'.chan i).tcnt = r.counter.count) := by
  unfold Tmu.syncChan at h
  cases hsync : (t.chan j).sync (t.chanEnabled j) t.now with
  | error e => rw [hsync] at h; cases h
  | ok c =>
    rw [hsync] at h
    cases h
    have hown : j = i → Synced t.now (t.chanEnabled i) c r.counter ∧
        Tracks t.now (t.chanEnabled i) c r.counter := by
      rintro rfl
      exact follows.tracks.sync fits hsync
    have hfollows := follows.setChan (k := r.counter) fun hj => (hown hj).2
    rw [ite_self] at hfollows
    refine ⟨hfollows, ?_⟩
    intro hj
    rw [setChan_chan, if_pos hj.symm]
    exact (hown hj).1.count.symm

theorem Follows.tstrWriteHandler
    (harmless : Happened.harmless ⟨.writeTstr val, t, none⟩ i = true)
    (h : t.tstrWriteHandler val = .ok t') :
    Follows i t' { r with counter := r.counter.setRunning (tstrBit val i) } := by
  obtain ⟨t1, hbefore, h⟩ := bind_eq_ok h
  obtain ⟨hstamp1, htstr1, hchan1⟩ := each_ok hbefore
  obtain ⟨hstamp, htstr, hchan⟩ := each_ok h
  have hbefore := hchan1 i
  have hafter := hchan i
  have hon : t'.chanEnabled i = tstrBit val i := by
    unfold chanEnabled
    rw [htstr]
    rfl
  have hstamp' : t'.stamp = t.stamp := hstamp.trans hstamp1
  refine ⟨follows.stamp.trans hstamp'.symm, ?_⟩
  rw [hon, show t'.now = t.stamp / tmuDiv by rw [now, hstamp']]
  have hafter : (t1.chan i).tstrAfter (tstrBit val i) t.stamp = .ok (t'.chan i) := by
    rw [← hstamp1]
    exact hafter
  have hchanges : ∀ b, (t.chanEnabled 0 != tstrBit val 0) = b →
      ((t.tstr &&& tstrChanMask != 0) != (val &&& 7 &&& tstrChanMask != 0)) = b := fun b hb => hb
  simp only [Happened.harmless] at harmless
  cases hc : t.chanEnabled 0 != tstrBit val 0 with
  | false =>
    refine follows.tracks.tstr_unchanged fits (by simpa using hchanges _ hc) ?_ hbefore hafter
    intro ho hw div hdiv
    show (t.chan i).total t.now % div = 0
    simpa [hc, ho, hw, hdiv] using harmless
  | true =>
    have hsame := tstrBefore_changed (by simpa using hchanges _ hc) hbefore
    rw [hsame] at hafter
    refine follows.tracks.tstr_changed fits ?_ ?_ hafter
    · intro ho hw div hdiv
      show (t.chan i).total t.now < div
      simpa [hc, ho, hw, hdiv] using harmless
    · intro ho hw
      show (t.chan i).total t.now = 0
      simpa [hc, ho, hw] using harmless

end

theorem Follows.tick (fits : t.chanEnabled i = true → (t.chan i).total (t.now + 1) < 2 ^ 32)
    (h : t.tick = .ok t') : Follows i t' (r.next i .tick).2 := by
  obtain ⟨hstamp, htstr, hchan⟩ := each_ok h
  have hon : t'.chanEnabled i = t.chanEnabled i := by
    unfold chanEnabled
    rw [htstr]
  have hnow : t'.now = (t.stamp + 1) / tmuDiv := by rw [now, hstamp]
  refine ⟨(congrArg (· + 1) follows.stamp).trans hstamp.symm, ?_⟩
  rw [hon, hnow]
  simp only [Reference.next, follows.stamp]
  exact follows.tracks.tick fits (hchan i)

theorem Follows.step {a : Action} {h : Happened} (hstep : t.step a = some (h, t'))
    (allowed : h.timely i = true ∧ h.harmless i = true) :
    h.tcntRead i = (r.next i a).1 ∧ Follows i t' (r.next i a).2 := by
  obtain ⟨⟨value, t1⟩, haccess, hpair⟩ := map_eq_some_iff.mp hstep
  have hok : t.access a = .ok (value, t1) := by
    cases h : t.access a with
    | error e => rw [h] at haccess; cases haccess
    | ok r => rw [h] at haccess; cases haccess; rfl
  cases hpair
  obtain ⟨timely, harmless⟩ := allowed
  have hfits := timely_now follows timely
  cases a with
  | tick =>
    obtain ⟨t2, htick, hpair⟩ := map_eq_ok hok
    cases hpair
    refine ⟨rfl, follows.tick ?_ htick⟩
    intro hon
    simpa [Happened.timely, hon] using timely
  | readTstr | readTcor _ =>
    cases hok
    exact ⟨rfl, follows⟩
  | writeTstr val =>
    obtain ⟨t2, hwrite, hpair⟩ := map_eq_ok hok
    cases hpair
    exact ⟨rfl, follows.tstrWriteHandler hfits harmless hwrite⟩
  | readTcr j =>
    obtain ⟨t2, hsync, hpair⟩ := map_eq_ok hok
    cases hpair
    exact ⟨rfl, (follows.syncChan hfits hsync).1⟩
  | writeTcr j val =>
    obtain ⟨c, hwrite, hpair⟩ := map_eq_ok hok
    cases hpair
    refine ⟨rfl, follows.setChan ?_⟩
    rintro rfl
    exact follows.tracks.tcrWriteHandler hfits hwrite
  | writeTcor j val =>
    cases hok
    refine ⟨rfl, follows.setChan ?_⟩
    rintro rfl
    obtain ⟨h1, h2, -, h4, h5, h6, h7⟩ := follows.tracks
    refine ⟨h1, h2, rfl, h4, h5, h6, fun hon => ?_⟩
    obtain ⟨div, hdiv, runs⟩ := h7 hon
    exact ⟨div, hdiv, runs.fraction, runs.notDue, runs.event, runs.count, runs.progress⟩
  | readTcnt j =>
    obtain ⟨t2, hsync, hpair⟩ := map_eq_ok hok
    cases hpair
    obtain ⟨hfollows, hcount⟩ := follows.syncChan hfits hsync
    refine ⟨?_, hfollows⟩
    simp only [Happened.tcntRead, Reference.next]
    by_cases hj : j = i
    · rw [if_pos hj, if_pos hj, ← hcount hj, hj]
    · rw [if_neg hj, if_neg hj]
  | writeTcnt j val =>
    obtain ⟨c, hwrite, hpair⟩ := map_eq_ok hok
    cases hpair
    refine ⟨rfl, follows.setChan ?_⟩
    rintro rfl
    exact follows.tracks.tcntWriteHandler hfits hwrite

end

theorem follows_reset (i : Fin 3) : Follows i reset .start := by
  have hchan : reset.chan i = resetChan := by
    match i with
    | 0 | 1 | 2 => rfl
  have hoff : reset.chanEnabled i = false := by
    unfold chanEnabled
    rw [show reset.tstr = 0 from rfl, UInt32.zero_and]
    rfl
  refine ⟨rfl, ?_⟩
  rw [hchan, hoff]
  exact ⟨rfl, rfl, rfl, le_refl _, rfl, fun _ => ⟨rfl, rfl⟩, nofun⟩

end

/-- In every run from a reset, the values read from TCNT of a channel are those of a counter that
is decremented in every period of its prescaler while it runs, provided the channel is brought up
to date before its cycles exceed 32 bits and no write to TSTR does it harm. -/
theorem tcnt_reads_follow_counter (i : Fin 3) (t : Tmu) (as : List Action)
    (trace : List Happened) (reached : run step reset as = (trace, some t))
    (allowed : ∀ h ∈ trace, h.timely i = true ∧ h.harmless i = true) :
    trace.map (·.tcntRead i) = follow (Reference.next i) .start as :=
  run_follow (fun follows hstep hallowed => follows.step hstep hallowed) reached allowed
    (follows_reset i)

/-- Channel 0 is started, and started once more after three quarters of a period. -/
def restarted : List Action :=
  .writeTstr 1 :: replicate (3 * tmuDiv) .tick ++ .writeTstr 1 ::
    replicate tmuDiv .tick ++ [.readTcnt firstChan]

/-- The counter has not been decremented after a whole period. -/
theorem restarted_loses_fraction :
    ((run step reset restarted).1.map (·.tcntRead 0)).getLast? = some (some 0xffffffff) ∧
      (follow (Reference.next 0) .start restarted).getLast? = some (some 0xfffffffe) := by
  decide +kernel

/-- Channel 0 is started and read after a period. -/
theorem started_follows :
    ∃ t, (run step reset (.writeTstr 1 :: replicate (4 * tmuDiv) .tick ++ [.readTcnt 0])).2 =
        some t ∧
      (run step reset (.writeTstr 1 :: replicate (4 * tmuDiv) .tick ++ [.readTcnt 0])).1.map
          (·.tcntRead 0) =
        follow (Reference.next 0) .start
          (.writeTstr 1 :: replicate (4 * tmuDiv) .tick ++ [.readTcnt 0]) := by
  have hrun : (run step reset
      (.writeTstr 1 :: replicate (4 * tmuDiv) .tick ++ [.readTcnt 0])).2.isSome = true := by
    decide +kernel
  obtain ⟨t, ht⟩ := isSome_iff_exists.mp hrun
  refine ⟨t, ht, ?_⟩
  exact tcnt_reads_follow_counter 0 t _ _ (Prod.ext rfl ht) (by decide +kernel)

end Sh4.Tmu
